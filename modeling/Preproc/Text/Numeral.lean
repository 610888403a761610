import Preproc.Text.Blank
import Preproc.Text.Digit

/-!
# Numerals

Reading an integer written in a given base. A numeral may stand between blanks, carry a sign, repeat
the mark of its base (`0x`, `0o` or `0b`), use the decimal digits of any script, and have single
underscores between its digits.
-/

namespace Preproc.Text

/-- The value of a digit or letter as a digit, so that `a` is ten. -/
def digitValue? (c : Char) : Option Nat :=
  if c.isDigit then some (c.toNat - 0x30)
  else if 'a' ≤ c && c ≤ 'z' then some (c.toNat - 0x57)
  else if 'A' ≤ c && c ≤ 'Z' then some (c.toNat - 0x37)
  else none

/-- The value of `c` as a digit of `base`. -/
def digitIn? (base : Nat) (c : Char) : Option Nat :=
  (digitValue? c).filter (· < base)

/-- Reads the digits that follow a number with value `acc`; an underscore needs a digit after it. -/
def readDigits? (base : Nat) (acc : Nat) : List Char → Option Nat
  | [] => some acc
  -- A second underscore is no digit, so it is refused here.
  | '_' :: c :: cs =>
    match digitIn? base c with
    | some d => readDigits? base (acc * base + d) cs
    | none => none
  | c :: cs =>
    match digitIn? base c with
    | some d => readDigits? base (acc * base + d) cs
    | none => none

/-- Reads a nonempty run of digits. -/
def readMagnitude? (base : Nat) : List Char → Option Nat
  | [] => none
  | c :: cs => (digitIn? base c).bind fun d => readDigits? base d cs

/-- The ASCII form of a character of a numeral: digits of other scripts become ASCII digits, blanks
above ASCII become spaces, and no other character above ASCII is allowed. -/
def asciiForm? (c : Char) : Option Char :=
  if c.toNat < 0x80 then some c
  else if isBlank c then some ' '
  else (decimalValue? c).map fun d => Char.ofNat (0x30 + d)

/-- A text in ASCII is its own ASCII form. -/
theorem mapM_asciiForm? {cs : List Char} (h : ∀ c ∈ cs, c.toNat < 0x80) :
    cs.mapM asciiForm? = some cs := by
  induction cs with
  | nil => rfl
  | cons c cs ih =>
    rw [List.mapM_cons, ih fun x hx => h x (List.mem_cons_of_mem c hx), asciiForm?,
      if_pos (h c List.mem_cons_self)]
    rfl

/-- The blanks allowed around a numeral in ASCII form. -/
def isMargin (c : Char) : Bool :=
  c = ' ' || (0x09 ≤ c.toNat && c.toNat ≤ 0x0D)

/-- A text without blanks at its ends is left alone. -/
theorem dropWhile_isMargin {cs : List Char} (h : ∀ c ∈ cs, isMargin c = false) :
    cs.dropWhile isMargin = cs := by
  cases cs with
  | nil => rfl
  | cons c cs => rw [List.dropWhile_cons, if_neg (by simp [h c List.mem_cons_self])]

/-- Drops the mark of the base, and an underscore that follows it. -/
def dropBaseMark (base : Nat) : List Char → List Char
  | '0' :: m :: cs =>
    if (base = 16 && (m = 'x' || m = 'X')) || (base = 8 && (m = 'o' || m = 'O'))
        || (base = 2 && (m = 'b' || m = 'B')) then
      match cs with
      | '_' :: rest => rest
      | rest => rest
    else '0' :: m :: cs
  | cs => cs

/-- Numerals in base ten with more digits than this are refused. -/
def maxDecimalDigits : Nat := 4300

/-- Whether a run of digits is longer than base ten allows. -/
def isOverlong (base : Nat) (cs : List Char) : Bool :=
  base = 10 && maxDecimalDigits < (cs.filter (· ≠ '_')).length

/-- Reads the digits of a numeral after its sign. -/
def readUnsigned? (base : Nat) (cs : List Char) : Option Nat :=
  let digits := dropBaseMark base cs
  if isOverlong base digits then none else readMagnitude? base digits

/-- Reads a whole numeral in `base`. -/
def readInteger? (base : Nat) (cs : List Char) : Option Int :=
  (cs.mapM asciiForm?).bind fun ascii =>
    let core := ((ascii.dropWhile isMargin).reverse.dropWhile isMargin).reverse
    match core with
    | '-' :: rest => (readUnsigned? base rest).map fun n => -(n : Int)
    | '+' :: rest => (readUnsigned? base rest).map Int.ofNat
    | rest => (readUnsigned? base rest).map Int.ofNat

end Preproc.Text
