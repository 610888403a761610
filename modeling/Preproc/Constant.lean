import Preproc.Text.Numeral
import Preproc.Word

/-!
# Integer and character constants

The values of the constants that a condition may hold.
-/

namespace Preproc

/-- Why a spelling is no constant. -/
inductive ConstantError where
  | notInteger (spelling : String)
  | tooLarge (spelling : String)
  /-- No quote opens the character constant. -/
  | noQuote
  | emptyCharacter
  | emptyHexEscape
  /-- A backslash before a character that it does not escape, or before the end. -/
  | unknownEscape (c : Option Char)
  /-- The code of a character does not fit a word. -/
  | codeOverflow
deriving DecidableEq, Repr

/-- The wording of a refusal. -/
def ConstantError.message : ConstantError → String
  | notInteger spelling => s!"Invalid integer constant: {spelling}"
  | tooLarge spelling => s!"Integer constant is too large: {spelling}"
  | noQuote => "Missing opening quote."
  | emptyCharacter => "Empty character constant."
  | emptyHexEscape => "Invalid hexadecimal escape."
  | unknownEscape c => "Invalid escape sequence: \\" ++ String.ofList c.toList
  | codeOverflow => "Character code is too large."

namespace Constant

/-! ## Integers -/

/-- The suffixes of integer constants in lower case, and whether each means unsigned. -/
def suffixes : List (List Char × Bool) :=
  [(['u', 'l', 'l'], true), (['l', 'l', 'u'], true), (['u', 'l'], true), (['l', 'u'], true),
   (['l', 'l'], false), (['u'], true), (['l'], false)]

/-- The text before its suffix, and whether the suffix means unsigned. -/
def splitSuffix (cs : List Char) : List Char × Bool :=
  match suffixes.find? fun s => s.1.isSuffixOf (cs.map Char.toLower) with
  | some (s, unsigned) => (cs.take (cs.length - s.length), unsigned)
  | none => (cs, false)

/-- The base of a text, and what is left of it without the mark of the base. -/
def splitBase : List Char → Nat × List Char
  | '0' :: 'x' :: cs | '0' :: 'X' :: cs => (16, cs)
  | '0' :: 'b' :: cs | '0' :: 'B' :: cs => (2, cs)
  | '0' :: c :: cs => (8, '0' :: c :: cs)
  | cs => (10, cs)

/-- The value of an integer constant: quotes between its digits do not count, and a value beyond the
signed range is unsigned. -/
def integer (spelling : String) : Except ConstantError Word :=
  let (body, unsigned) := splitSuffix (spelling.toList.filter (· ≠ '\''))
  let (base, digits) := splitBase body
  match Text.readInteger? base digits with
  | none => .error (.notInteger spelling)
  | some n =>
    if Word.unsignedBound ≤ n then .error (.tooLarge spelling)
    else .ok (.ofInt n (unsigned || Word.signedBound ≤ n))

/-! ## Characters -/

/-- The codes of the escapes that are one letter or sign. -/
def simpleEscape? : Char → Option Nat
  | 'n' => some 10
  | 't' => some 9
  | 'r' => some 13
  | 'a' => some 7
  | 'b' => some 8
  | 'f' => some 12
  | 'v' => some 11
  | '\\' => some 92
  | '\'' => some 39
  | '"' => some 34
  | '?' => some 63
  | 'e' => some 27
  | _ => none

/-- The number that digits of `base` stand for. -/
def digitsValue (base : Nat) (ds : List Char) : Nat :=
  ds.foldl (fun n c => n * base + (Text.digitValue? c).getD 0) 0

/-- Whether `c` is a digit of `base`. -/
def isDigitIn (base : Nat) (c : Char) : Bool :=
  (Text.digitIn? base c).isSome

/-- Reads the escape after a backslash: its code, and how many characters it takes. -/
def readEscape (cs : List Char) : Except ConstantError (Nat × Nat) :=
  match cs with
  | [] => .error (.unknownEscape none)
  | c :: rest =>
    match simpleEscape? c with
    | some code => .ok (code, 1)
    | none =>
      if c = 'x' || c = 'X' then
        let ds := rest.takeWhile (isDigitIn 16)
        if ds.isEmpty then .error .emptyHexEscape else .ok (digitsValue 16 ds, 1 + ds.length)
      else if isDigitIn 8 c then
        -- An octal escape has at most three digits.
        let ds := ((c :: rest).take 3).takeWhile (isDigitIn 8)
        .ok (digitsValue 8 ds, ds.length)
      else .error (.unknownEscape (some c))

/-- The codes of the characters between the quotes. -/
def characterCodes (cs : List Char) : Except ConstantError (List Nat) :=
  match cs with
  | [] => .ok []
  | c :: rest =>
    if c = '\\' then do
      let (code, n) ← readEscape rest
      let codes ← characterCodes (rest.drop n)
      pure (code :: codes)
    else do
      let codes ← characterCodes rest
      pure (c.toNat :: codes)
termination_by cs.length
decreasing_by all_goals (simp only [List.length_cons, List.length_drop]; omega)

/-- The value of a character constant with one code; a plain character is signed. -/
def singleCode (plain : Bool) (code : Nat) : Except ConstantError Word :=
  let n : Int := if plain && 128 ≤ code && code < 256 then code - 256 else code
  if Word.signedBound ≤ n then .error .codeOverflow else .ok (.ofInt n)

/-- The value of a character constant with several codes, eight bits each. -/
def combineCodes (codes : List Nat) : Word :=
  .ofInt (codes.foldl (fun n code => n * 256 + code % 256) 0 : Nat)

/-- The value of a character constant. -/
def character (spelling : String) : Except ConstantError Word :=
  let encoding := spelling.toList.takeWhile (· ≠ '\'')
  match spelling.toList.drop encoding.length with
  | [] => .error .noQuote
  | _ :: rest =>
    match rest.dropLast with
    | [] => .error .emptyCharacter
    | body => do
      match ← characterCodes body with
      | [code] => singleCode encoding.isEmpty code
      | codes => pure (combineCodes codes)

end Constant

end Preproc
