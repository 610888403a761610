/-!
# Tokens

A token is a piece of source text with its kind, the place it came from, whether white space
precedes it and whether it starts a logical line. Macro expansion adds the outermost macro that
produced it, and whether a name may still be expanded.
-/

namespace Preproc

/-- The kinds of token. Keywords are names too: they can be defined and expanded as macros. -/
inductive Kind where
  | identifier
  | keyword
  | number
  | string
  | character
  | punctuator
  | unknown
  | eof
deriving DecidableEq, Repr

/-- A piece of source text. -/
structure Token where
  kind : Kind
  /-- The text of the token, with quotes and encoding. -/
  value : String
  file : String
  /-- The physical line, counted from one. -/
  line : Nat
  /-- The column in the physical line, counted from zero. -/
  col : Nat
  /-- Whether white space or a comment precedes the token. -/
  prevWhite : Bool := false
  /-- Whether the token is the first of a logical line. -/
  bol : Bool := false
  /-- The outermost macro whose expansion produced the token. -/
  expandedFrom : Option String := none
  /-- False once a name has been painted: it is never expanded again. -/
  expandable : Bool := true
deriving DecidableEq, Repr

namespace Token

/-- The spellings of the operator that introduces a directive or makes a string. -/
def hash : List String := ["#", "%:"]

/-- The spellings of the operator that pastes two tokens. -/
def hashHash : List String := ["##", "%:%:"]

/-- Whether the token is an identifier or a keyword. -/
def isName (t : Token) : Bool :=
  t.kind = .identifier || t.kind = .keyword

/-- Whether the token is a punctuator with one of the spellings `values`. -/
def isOneOf (t : Token) (values : List String) : Bool :=
  t.kind = .punctuator && values.contains t.value

/-- Whether the token is the punctuator `value`. -/
def isPunctuator (t : Token) (value : String) : Bool :=
  t.kind = .punctuator && t.value = value

/-- A token is no other punctuator than it is. -/
theorem isPunctuator_of_ne {t : Token} {a b : String} (h : t.isPunctuator a = true)
    (hne : a ≠ b) : t.isPunctuator b = false := by
  simp only [isPunctuator, Bool.and_eq_true, decide_eq_true_eq] at h
  simp [isPunctuator, h.2, hne]

/-- A name is no punctuator. -/
theorem isPunctuator_of_isName {t : Token} (h : t.isName = true) (value : String) :
    t.isPunctuator value = false := by
  simp only [isName, Bool.or_eq_true, decide_eq_true_eq] at h
  rcases h with h | h <;> simp [isPunctuator, h]

/-- Whether the token is the pasting operator. -/
def isPaste (t : Token) : Bool :=
  t.isOneOf hashHash

/-- Whether the token is the operator that introduces a directive or makes a string. -/
def isHash (t : Token) : Bool :=
  t.isOneOf hash

/-- The token, with or without white space before it. -/
def withWhite (t : Token) (white : Bool) : Token :=
  { t with prevWhite := white }

/-- The token, never to be expanded again. -/
def paint (t : Token) : Token :=
  { t with expandable := false }

/-- The token as produced by expanding the name `origin`, which is an invocation of `name`. -/
def relocate (t : Token) (origin : Token) (name : String) : Token :=
  { t with
    file := origin.file
    line := origin.line
    col := origin.col
    bol := false
    expandedFrom := some (origin.expandedFrom.getD name) }

/-- A text with a backslash before every backslash and double quote. -/
def escape (cs : List Char) : List Char :=
  cs.flatMap fun c => if c = '\\' || c = '"' then ['\\', c] else [c]

/-- The token as it appears inside the result of the stringizing operator: what stands in a literal
is escaped. -/
def sanitized (t : Token) : List Char :=
  if t.kind = .string || t.kind = .character then escape t.value.toList else t.value.toList

/-- The encoding of a string literal: what precedes its opening quote. -/
def encoding (t : Token) : List Char :=
  t.value.toList.takeWhile (· ≠ '"')

/-- Whether a string literal is raw. -/
def isRaw (t : Token) : Bool :=
  t.encoding.getLast? = some 'R'

/-- The characters between the quotes of a string literal that is not raw. -/
def content (t : Token) : List Char :=
  (t.value.toList.drop (t.encoding.length + 1)).dropLast

theorem quote_notMem_encoding (t : Token) : '"' ∉ t.encoding := by
  intro hmem
  simpa using List.all_eq_true.1 (List.all_takeWhile (p := (· ≠ '"'))) _ hmem

/-- What precedes the first quote is the encoding, and what is between it and the last character
the content. -/
theorem encoding_content_of_value {t : Token} {e c : List Char} (he : '"' ∉ e)
    (hvalue : t.value.toList = e ++ '"' :: (c ++ ['"'])) : t.encoding = e ∧ t.content = c := by
  have hencoding : t.encoding = e := by
    have hfree : ∀ x ∈ e, (decide (x ≠ '"')) = true := by
      intro x hx
      exact decide_eq_true fun heq => he (heq ▸ hx)
    rw [encoding, hvalue, List.takeWhile_append_of_pos hfree]
    simp
  refine ⟨hencoding, ?_⟩
  rw [content, hencoding, hvalue]
  simp

/-- The spellings of the tokens, with one space where white space precedes a token that is not the
first. -/
def spelling (ts : List Token) : String :=
  match ts with
  | [] => ""
  | t :: rest =>
    t.value ++ String.join (rest.map fun u => if u.prevWhite then " " ++ u.value else u.value)

end Token

end Preproc
