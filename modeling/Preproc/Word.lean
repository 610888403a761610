/-!
# 64-bit words

Conditions are computed with 64-bit integers. A word is 64 bits and whether they are read with or
without a sign; `toInt` is the integer that it stands for. Sums, differences, products and shifts
wrap around, division cuts off towards zero.
-/

namespace Preproc

/-- A 64-bit integer. -/
structure Word where
  bits : BitVec 64
  unsigned : Bool := false
deriving DecidableEq, Repr

/-- Why an operation has no result. -/
inductive ArithmeticError where
  | divisionByZero
  | negativeShift
deriving DecidableEq, Repr

/-- The wording of a failed operation. -/
def ArithmeticError.message : ArithmeticError → String
  | divisionByZero => "Division by zero."
  | negativeShift => "Negative shift count."

/-- The operators that compute a word from another. -/
inductive UnaryOp where
  | negate
  | plus
  | not
  | complement
deriving DecidableEq, Repr

/-- The operators that compute a word from two others. -/
inductive BinaryOp where
  | bitOr
  | bitXor
  | bitAnd
  | equal
  | notEqual
  | less
  | lessEqual
  | greater
  | greaterEqual
  | shiftLeft
  | shiftRight
  | add
  | subtract
  | multiply
  | divide
  | remainder
deriving DecidableEq, Repr

namespace Word

/-- The integer that the word stands for. -/
def toInt (w : Word) : Int :=
  if w.unsigned then w.bits.toNat else w.bits.toInt

/-- The word with the last 64 bits of an integer. -/
def ofInt (n : Int) (unsigned : Bool := false) : Word :=
  ⟨BitVec.ofInt 64 n, unsigned⟩

/-- The first integer beyond the range of signed words. -/
def signedBound : Int := 0x8000000000000000

/-- The first integer beyond the range of unsigned words. -/
def unsignedBound : Int := 0x10000000000000000

/-- One for true and zero for false. -/
def ofBool (b : Bool) : Word :=
  ofInt (if b then 1 else 0)

/-- Whether the word counts as true. -/
def isTrue (w : Word) : Bool :=
  w.bits ≠ 0

/-- The same bits, read without a sign if `unsigned` asks for it. -/
def convert (w : Word) (unsigned : Bool) : Word :=
  ⟨w.bits, w.unsigned || unsigned⟩

/-- Applies an operator to a word. -/
def unary : UnaryOp → Word → Word
  | .negate, w => ofInt (-w.toInt) w.unsigned
  | .plus, w => w
  | .not, w => ofBool (!w.isTrue)
  | .complement, w => ⟨~~~w.bits, w.unsigned⟩

/-- Shifts `a` by the number that `b` stands for; more than 64 places make no difference. -/
def shift (left : Bool) (a b : Word) : Except ArithmeticError Word :=
  if b.toInt < 0 then .error .negativeShift
  else
    let count := min b.toInt.toNat 64
    .ok (ofInt (if left then a.toInt <<< count else a.toInt >>> count) a.unsigned)

/-- Applies an operator to two words. A shift takes the signedness of its left operand; any other
operator reads both operands without a sign if one of them is. -/
def binary (op : BinaryOp) (a b : Word) : Except ArithmeticError Word :=
  let unsigned := a.unsigned || b.unsigned
  let x := a.convert unsigned
  let y := b.convert unsigned
  match op with
  | .shiftLeft => shift true a b
  | .shiftRight => shift false a b
  | .bitOr => .ok ⟨x.bits ||| y.bits, unsigned⟩
  | .bitXor => .ok ⟨x.bits ^^^ y.bits, unsigned⟩
  | .bitAnd => .ok ⟨x.bits &&& y.bits, unsigned⟩
  | .equal => .ok (ofBool (x.toInt = y.toInt))
  | .notEqual => .ok (ofBool (x.toInt ≠ y.toInt))
  | .less => .ok (ofBool (x.toInt < y.toInt))
  | .lessEqual => .ok (ofBool (x.toInt ≤ y.toInt))
  | .greater => .ok (ofBool (y.toInt < x.toInt))
  | .greaterEqual => .ok (ofBool (y.toInt ≤ x.toInt))
  | .add => .ok (ofInt (x.toInt + y.toInt) unsigned)
  | .subtract => .ok (ofInt (x.toInt - y.toInt) unsigned)
  | .multiply => .ok (ofInt (x.toInt * y.toInt) unsigned)
  | .divide =>
    if y.toInt = 0 then .error .divisionByZero else .ok (ofInt (x.toInt.tdiv y.toInt) unsigned)
  | .remainder =>
    if y.toInt = 0 then .error .divisionByZero else .ok (ofInt (x.toInt.tmod y.toInt) unsigned)

end Word

end Preproc
