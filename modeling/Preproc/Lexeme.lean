import Preproc.Text.Alphanumeric
import Preproc.Text.Digit
import Preproc.Token
import Preproc.Token.Vocabulary

/-!
# Lexemes

How far the next token of a logical text reaches, and of what kind it is. A scanner looks at the
characters that follow and answers with a `Lexeme`, or with the reason why there is none of its
kind. `scan` tries the scanners in order; `lexemeAt` adds the single unknown character that stands
where none applies. A `gap` is the white space and the comments between two tokens.

Every lexeme has at least one character (`length_lexemeAt_pos`), so cutting a text into tokens ends.
-/

namespace Preproc

/-- Why a text does not start with a token of a certain kind. -/
inductive ScanError where
  | notNumber
  | notRawString
  | notLiteral
  | leadingDigit
  | notIdentifier
  | notPunctuator
deriving DecidableEq, Repr

/-- The wording of a scanner's refusal. -/
def ScanError.message : ScanError → String
  | notNumber => "Invalid preprocessing number."
  | notRawString => "Not a raw string."
  | notLiteral => "Not a string or character constant."
  | leadingDigit => "Identifiers cannot start with a digit."
  | notIdentifier => "Invalid identifier."
  | notPunctuator => "Invalid punctuator."

/-- What makes the rest of a line an unknown token. -/
inductive Flaw where
  | openLiteral
  | openRawString
deriving DecidableEq, Repr

/-- The kind of a token and the number of its characters. -/
structure Lexeme where
  kind : Kind
  length : Nat
  flaw : Option Flaw := none
deriving DecidableEq, Repr

/-- Where `mark` first occurs in a text. -/
def offsetOf? (mark : List Char) (cs : List Char) : Option Nat :=
  go 0 cs
where
  go (n : Nat) : List Char → Option Nat
    | [] => if mark.isEmpty then some n else none
    | c :: cs => if mark.isPrefixOf (c :: cs) then some n else go (n + 1) cs

/-- The number of characters before the next newline. -/
def restOfLine (cs : List Char) : Nat :=
  (cs.takeWhile (· ≠ '\n')).length

/-! ## Numbers -/

/-- Whether a number continues with `c` whatever follows. -/
def isNumberChar (c : Char) : Bool :=
  Text.isAlphanumeric c || c = '_' || c = '.'

/-- Whether `c` and `d` are an exponent mark and its sign. -/
def isExponent (c d : Char) : Bool :=
  (c = 'e' || c = 'E' || c = 'p' || c = 'P') && (d = '+' || d = '-')

/-- The length of what continues a number: letters, digits, underscores and periods, signed
exponents, and single quotes that separate digits. -/
def numberTail : List Char → Nat
  | [] => 0
  | [c] => if isNumberChar c then 1 else 0
  | c :: d :: cs =>
    if isExponent c d then 2 + numberTail cs
    else if isNumberChar c then 1 + numberTail (d :: cs)
    else if c = '\'' && Text.isAlphanumeric d then 2 + numberTail cs
    else 0

/-- A number starts with a digit, or with a period and a digit. -/
def scanNumber : List Char → Except ScanError Lexeme
  | '.' :: d :: rest =>
    if Text.isDigit d then .ok ⟨.number, 2 + numberTail rest, none⟩ else .error .notNumber
  | d :: rest =>
    if Text.isDigit d then .ok ⟨.number, 1 + numberTail rest, none⟩ else .error .notNumber
  | [] => .error .notNumber

/-! ## Literals -/

/-- The length of a literal after its opening quote, the closing quote included. A backslash takes
the next character with it; the literal does not reach past the end of the line. -/
def closingQuote? (quote : Char) : List Char → Option Nat
  | [] => none
  | ['\\'] => none
  | '\\' :: c :: cs => if c = '\n' then none else (closingQuote? quote cs).map (2 + ·)
  | c :: cs =>
    if c = quote then some 1
    else if c = '\n' then none
    else (closingQuote? quote cs).map (1 + ·)

/-- An opening quote after one of the given encodings: the length of the encoding, the quote, and
what follows it. -/
def openingQuote? (encodings : List String) (quotes : List Char) (cs : List Char) :
    Option (Nat × Char × List Char) :=
  encodings.findSome? fun e =>
    match e.toList.isPrefixOf? cs with
    | some (q :: rest) => if quotes.contains q then some (e.length, q, rest) else none
    | _ => none

/-- A string or character literal. One that is not closed is unknown up to the end of the line. -/
def scanLiteral (cs : List Char) : Except ScanError Lexeme :=
  match openingQuote? encodings ['"', '\''] cs with
  | none => .error .notLiteral
  | some (n, quote, rest) =>
    match closingQuote? quote rest with
    | some m => .ok ⟨if quote = '"' then .string else .character, n + 1 + m, none⟩
    | none => .ok ⟨.unknown, n + 1 + restOfLine rest, some .openLiteral⟩

/-- Whether `c` may stand in the delimiter of a raw string. -/
def isDelimiterChar (c : Char) : Bool :=
  !(" ()\\\t\x0b\x0c\n\"".toList.contains c)

/-- The longest delimiter of a raw string. -/
def maxDelimiter : Nat := 16

/-- A raw string: the characters between its opening delimiter and the first matching closing one.
One that is not closed, or whose delimiter is wrong, is unknown up to the end of the line. -/
def scanRawString (cs : List Char) : Except ScanError Lexeme :=
  match openingQuote? rawEncodings ['"'] cs with
  | none => .error .notRawString
  | some (n, _, rest) =>
    let delimiter := rest.takeWhile isDelimiterChar
    match rest.drop delimiter.length with
    | '(' :: body =>
      if delimiter.length ≤ maxDelimiter then
        match offsetOf? (')' :: (delimiter ++ ['"'])) body with
        -- Encoding and quote, delimiter and parenthesis, body, and the same once more.
        | some m => .ok ⟨.string, n + 1 + delimiter.length + 1 + m + delimiter.length + 2, none⟩
        | none => .ok ⟨.unknown, n + 1 + restOfLine rest, some .openRawString⟩
      else .ok ⟨.unknown, n + 1 + restOfLine rest, none⟩
    | _ => .ok ⟨.unknown, n + 1 + restOfLine rest, none⟩

/-! ## Names and punctuators -/

/-- Whether a name may hold `c`. -/
def isNameChar (c : Char) : Bool :=
  Text.isAlphanumeric c || c = '_'

/-- A name: letters, digits and underscores, not starting with a digit. -/
def scanName (cs : List Char) : Except ScanError Lexeme :=
  if cs.head?.any Text.isDigit then .error .leadingDigit
  else
    let name := cs.takeWhile isNameChar
    if name.isEmpty then .error .notIdentifier
    else .ok ⟨if keywords.contains (String.ofList name) then .keyword else .identifier,
      name.length, none⟩

/-- The punctuators as lists of characters, longest first. -/
def punctuatorTexts : List (List Char) :=
  punctuators.map String.toList

/-- Whether the characters `<::` are read as `<` and `::`: unless one of `:` and `>` follows. -/
def splitsAngle : List Char → Bool
  | '<' :: ':' :: ':' :: rest => !(rest.head? = some ':' || rest.head? = some '>')
  | _ => false

/-- The longest punctuator that the text starts with. -/
def scanPunctuator (cs : List Char) : Except ScanError Lexeme :=
  match punctuatorTexts.find? (·.isPrefixOf cs) with
  | none => .error .notPunctuator
  -- In `<::` a digraph would hide the scope operator.
  | some p => .ok ⟨.punctuator, if splitsAngle cs then 1 else p.length, none⟩

/-! ## Tokens -/

/-- The scanners, in the order in which they are tried. -/
def scanners : List (List Char → Except ScanError Lexeme) :=
  [scanRawString, scanLiteral, scanNumber, scanName, scanPunctuator]

/-- The lexeme at the start of a text, by the first scanner that finds one. -/
def scan (cs : List Char) : Option Lexeme :=
  scanners.findSome? fun f => (f cs).toOption

/-- The lexeme at the start of a text: where no scanner finds one, one unknown character. -/
def lexemeAt (cs : List Char) : Lexeme :=
  (scan cs).getD ⟨.unknown, 1, none⟩

theorem length_scanNumber_pos {cs : List Char} {x : Lexeme} (h : scanNumber cs = .ok x) :
    0 < x.length := by
  unfold scanNumber at h
  split at h
  · split at h <;> simp at h
    subst h; dsimp only; omega
  · split at h <;> simp at h
    subst h; dsimp only; omega
  · simp at h

theorem length_scanLiteral_pos {cs : List Char} {x : Lexeme} (h : scanLiteral cs = .ok x) :
    0 < x.length := by
  unfold scanLiteral at h
  split at h
  · simp at h
  · split at h <;> (simp at h; subst h; dsimp only; omega)

theorem length_scanRawString_pos {cs : List Char} {x : Lexeme} (h : scanRawString cs = .ok x) :
    0 < x.length := by
  unfold scanRawString at h
  split at h
  · simp at h
  · simp only at h
    split at h
    · split at h
      · split at h <;> (simp at h; subst h; dsimp only; omega)
      · simp at h; subst h; dsimp only; omega
    · simp at h; subst h; dsimp only; omega

theorem length_scanName_pos {cs : List Char} {x : Lexeme} (h : scanName cs = .ok x) :
    0 < x.length := by
  unfold scanName at h
  split at h
  · simp at h
  · simp only at h
    split at h
    · simp at h
    · rename_i hne
      simp at h; subst h
      exact List.length_pos_iff.2 (by simpa using hne)

theorem length_scanPunctuator_pos {cs : List Char} {x : Lexeme}
    (h : scanPunctuator cs = .ok x) : 0 < x.length := by
  unfold scanPunctuator at h
  split at h
  · simp at h
  · rename_i p hp
    have hall : ∀ q ∈ punctuatorTexts, 0 < q.length := by decide
    have hpos := hall p (List.mem_of_find?_eq_some hp)
    simp at h; subst h; dsimp only
    split <;> omega

/-- A lexeme that is found is found by one of the scanners. -/
theorem scanner_of_scan {cs : List Char} {x : Lexeme} (h : scan cs = some x) :
    ∃ f ∈ scanners, f cs = .ok x := by
  obtain ⟨f, hf, hx⟩ := List.exists_of_findSome?_eq_some h
  refine ⟨f, hf, ?_⟩
  cases hfc : f cs with
  | error e => simp [hfc, Except.toOption] at hx
  | ok y => simp [hfc, Except.toOption] at hx; rw [hx]

/-- Every scanner that finds a lexeme finds at least one character. -/
theorem length_scan_pos {cs : List Char} {x : Lexeme} (h : scan cs = some x) : 0 < x.length := by
  obtain ⟨f, hf, hok⟩ := scanner_of_scan h
  simp only [scanners, List.mem_cons, List.not_mem_nil, or_false] at hf
  rcases hf with rfl | rfl | rfl | rfl | rfl
  · exact length_scanRawString_pos hok
  · exact length_scanLiteral_pos hok
  · exact length_scanNumber_pos hok
  · exact length_scanName_pos hok
  · exact length_scanPunctuator_pos hok

/-- A lexeme has at least one character. -/
theorem length_lexemeAt_pos (cs : List Char) : 0 < (lexemeAt cs).length := by
  unfold lexemeAt
  cases h : scan cs with
  | none => simp
  | some x => exact length_scan_pos h

/-! ## Gaps -/

/-- The white space and the comments between two tokens: their length, whether a line ends outside
the comments, and where a comment starts that is never closed. -/
structure Gap where
  length : Nat := 0
  newline : Bool := false
  openComment : Option Nat := none
deriving DecidableEq, Repr

/-- The gap with `n` more characters before it. -/
def Gap.after (g : Gap) (n : Nat) (newline : Bool) : Gap :=
  ⟨n + g.length, newline || g.newline, g.openComment.map (n + ·)⟩

/-- Whether `c` is white space within a line. -/
def isSpace (c : Char) : Bool :=
  c = ' ' || c = '\t' || c = '\x0b' || c = '\x0c'

/-- The gap that a text starts with. -/
def gapAt (cs : List Char) : Gap :=
  match cs with
  | [] => {}
  | '/' :: '/' :: rest =>
    (gapAt (rest.drop (restOfLine rest))).after (2 + restOfLine rest) false
  | '/' :: '*' :: rest =>
    match offsetOf? ['*', '/'] rest with
    | some n => (gapAt (rest.drop (n + 2))).after (n + 4) false
    -- The comment takes the rest of the text, newlines included.
    | none => ⟨2 + rest.length, false, some 0⟩
  | c :: rest =>
    if isSpace c then (gapAt rest).after 1 false
    else if c = '\n' then (gapAt rest).after 1 true
    else {}
termination_by cs.length
decreasing_by all_goals (simp only [List.length_cons, List.length_drop]; omega)

end Preproc
