import Mathlib.Data.Int.ModEq
import Preproc.Expression

/-!
# Arithmetic with 64 bits

A type of 64 bits is signed or unsigned, and has 2^64 integers in a row (`Word.InRange`). The result
of an operation is an integer of its type: the one that is equal to the exact result modulo 2^64
(`Word.Reduces`). There is only one, so a result that lies in the range of the type is exact.

The quotient of two integers of a type lies in its range, with one exception: the least signed
integer divided by minus one. So does the remainder, and what is left of an integer after a shift to
the right.

## Key results

- `Word.reduces_ofInt`: a word made of an integer is the integer modulo 2^64
- `Word.toInt_ofInt`: an integer in the range of the type is kept
- `Word.InRange.between`, `Word.inRange_tdiv`: results in range, and the quotients that do not wrap
  around
- `Word.unsigned_of_binary`: the type of a result
- `Word.arithmetic_exact`: what the operations give, and when they fail
- `Word.comparisons_exact`, `Word.bitwise_exact`: what comparisons and bitwise operators give
-/

namespace Preproc

/-! ## The type of a result -/

/-- Whether the result is unsigned, when the operand is or is not. -/
def UnaryOp.unsigned : UnaryOp → Bool → Bool
  | .negate, u | .plus, u | .complement, u => u
  | .not, _ => false

/-- Whether the result is unsigned, when the operands are or are not. -/
def BinaryOp.unsigned : BinaryOp → Bool → Bool → Bool
  | .add, u, v | .subtract, u, v | .multiply, u, v | .divide, u, v | .remainder, u, v
  | .bitOr, u, v | .bitXor, u, v | .bitAnd, u, v => u || v
  | .shiftLeft, u, _ | .shiftRight, u, _ => u
  | .equal, _, _ | .notEqual, _, _ | .less, _, _ | .lessEqual, _, _ | .greater, _, _
  | .greaterEqual, _, _ => false

namespace Word

/-- The type of a result is told by that of the operand. -/
theorem unsigned_unary (op : UnaryOp) (w : Word) :
    (unary op w).unsigned = op.unsigned w.unsigned := by
  cases op <;> rfl

/-- A shift has the type of its left operand. -/
private theorem unsigned_of_shift {left : Bool} {a b w : Word} (h : shift left a b = .ok w) :
    w.unsigned = a.unsigned := by
  unfold shift at h
  split at h
  · cases h
  · obtain rfl := Except.ok.inj h
    rfl

/-- A result has the type that the types of the operands say, whatever the operands are. -/
theorem unsigned_of_binary {op : BinaryOp} {a b w : Word} (h : binary op a b = .ok w) :
    w.unsigned = op.unsigned a.unsigned b.unsigned := by
  cases op with
  | shiftLeft => exact unsigned_of_shift h
  | shiftRight => exact unsigned_of_shift h
  -- These may fail, and then give nothing.
  | divide | remainder =>
    simp only [binary] at h
    split at h
    · cases h
    · obtain rfl := Except.ok.inj h
      rfl
  | _ =>
    obtain rfl := Except.ok.inj h
    rfl

/-! ## Ranges -/

/-- The integers of a type. -/
def InRange (unsigned : Bool) (n : Int) : Prop :=
  if unsigned then 0 ≤ n ∧ n < unsignedBound else -signedBound ≤ n ∧ n < signedBound

/-- The word has the type, and stands for the integer of that type that is equal to `n` modulo
2^64. -/
structure Reduces (unsigned : Bool) (n : Int) (w : Word) : Prop where
  type : w.unsigned = unsigned
  range : InRange unsigned w.toInt
  modulo : w.toInt ≡ n [ZMOD unsignedBound]

/-- The integers of the unsigned type, with the bound written out. -/
theorem inRange_unsigned {n : Int} : InRange true n ↔ 0 ≤ n ∧ n < 0x10000000000000000 := .rfl

/-- The integers of the signed type, with the bounds written out. -/
theorem inRange_signed {n : Int} :
    InRange false n ↔ -0x8000000000000000 ≤ n ∧ n < 0x8000000000000000 := .rfl

/-- A word stands for an integer of its type. -/
theorem inRange_toInt (w : Word) : InRange w.unsigned w.toInt := by
  have hbits := w.bits.isLt
  have hle := w.bits.le_toInt
  have hlt := w.bits.toInt_lt
  unfold InRange toInt unsignedBound signedBound
  split <;> omega

/-- The integers of a type are fewer than 2^64 apart, so no two of them are equal modulo 2^64. -/
private theorem InRange.eq_of_modEq {u : Bool} {m n : Int} (hm : InRange u m) (hn : InRange u n)
    (h : m ≡ n [ZMOD unsignedBound]) : m = n := by
  unfold Int.ModEq unsignedBound at h
  cases u with
  | true =>
    rw [inRange_unsigned] at hm hn
    omega
  | false =>
    rw [inRange_signed] at hm hn
    omega

/-- What lies between zero and an integer of a type is an integer of that type. -/
theorem InRange.between {u : Bool} {m n : Int} (h : InRange u m) (hpos : 0 ≤ m → 0 ≤ n ∧ n ≤ m)
    (hneg : m < 0 → m ≤ n ∧ n ≤ 0) : InRange u n := by
  cases u with
  | true =>
    rw [inRange_unsigned] at *
    omega
  | false =>
    rw [inRange_signed] at *
    omega

/-- A word made of an integer stands for that integer modulo 2^64. -/
theorem reduces_ofInt (u : Bool) (n : Int) : Reduces u n (ofInt n u) := by
  refine ⟨rfl, inRange_toInt (ofInt n u), ?_⟩
  unfold toInt ofInt unsignedBound
  simp only
  split
  · -- Without a sign.
    rw [BitVec.toNat_ofInt]
    unfold Int.ModEq
    omega
  · -- With one.
    rw [BitVec.toInt_ofInt]
    exact Int.bmod_emod

/-- An integer of the type is kept. -/
theorem toInt_ofInt {u : Bool} {n : Int} (h : InRange u n) : (ofInt n u).toInt = n :=
  (reduces_ofInt u n).range.eq_of_modEq h (reduces_ofInt u n).modulo

/-- The bits are the same with and without a sign, so the integers are equal modulo 2^64. -/
private theorem reduces_convert (w : Word) (u : Bool) :
    Reduces (w.unsigned || u) w.toInt (w.convert u) := by
  refine ⟨rfl, inRange_toInt (w.convert u), ?_⟩
  -- The two readings of a pattern of bits differ by a multiple of the modulus.
  have hbits : (w.bits.toNat : Int) ≡ w.bits.toInt [ZMOD unsignedBound] := by
    rw [BitVec.toInt_eq_toNat_bmod]
    exact Int.bmod_emod.symm
  unfold toInt convert
  cases w.unsigned with
  | true => exact .refl _
  | false =>
    cases u with
    | true => exact hbits
    | false => exact .refl _

/-! ## Division -/

/-- The sign of a quotient by a positive divisor, and of a remainder, is that of the dividend. -/
private theorem tdiv_sign {x y : Int} (hy : 0 < y) :
    (0 ≤ x → 0 ≤ x.tdiv y) ∧ (x ≤ 0 → x.tdiv y ≤ 0) := by
  refine ⟨fun hx => Int.tdiv_nonneg hx (Int.le_of_lt hy), fun hx => ?_⟩
  have hneg : 0 ≤ (-x).tdiv y := Int.tdiv_nonneg (by omega) (Int.le_of_lt hy)
  rw [Int.neg_tdiv] at hneg
  omega

/-- A remainder has the sign of the dividend, or is zero. -/
private theorem tmod_sign (x y : Int) : (0 ≤ x → 0 ≤ x.tmod y) ∧ (x ≤ 0 → x.tmod y ≤ 0) := by
  refine ⟨Int.tmod_nonneg y, fun hx => ?_⟩
  have hneg : 0 ≤ (-x).tmod y := Int.tmod_nonneg y (by omega)
  rw [Int.neg_tmod] at hneg
  omega

/-- The quotient of two integers of a type is one of them, unless the least signed integer is
divided by minus one. -/
theorem inRange_tdiv {u : Bool} {x y : Int} (hx : InRange u x) (hy : InRange u y) (hzero : y ≠ 0)
    (hleast : ¬(x = -signedBound ∧ y = -1)) : InRange u (x.tdiv y) := by
  have hle := Int.natAbs_tdiv_le_natAbs x y
  by_cases hpos : 0 < y
  · -- The quotient has the sign of the dividend, and is no larger.
    have hsign := tdiv_sign (x := x) hpos
    refine hx.between (fun h => ?_) (fun h => ?_)
    · have hnonneg := hsign.1 h
      omega
    · have hnonpos := hsign.2 (by omega)
      omega
  · cases u with
    | true =>
      rw [inRange_unsigned] at hy
      omega
    | false =>
      rw [inRange_signed] at *
      unfold signedBound at hleast
      by_cases hone : y = -1
      · rw [hone, Int.tdiv_neg, Int.tdiv_one]
        omega
      · -- Only half of the range is reached, so the change of sign does no harm.
        have hhalf : (x.tdiv y).natAbs ≤ x.natAbs / 2 := by
          rw [Int.natAbs_tdiv]
          exact Nat.div_le_div_left (by omega) (by omega)
        omega

/-- A remainder is an integer of the type: it has the sign of the dividend, and is no larger. -/
private theorem inRange_tmod {u : Bool} {x : Int} (hx : InRange u x) (y : Int) :
    InRange u (x.tmod y) := by
  -- A remainder is no larger than what is divided, and has its sign.
  have hle : (x.tmod y).natAbs ≤ x.natAbs := by
    rw [Int.natAbs_tmod]
    exact Nat.mod_le _ _
  have hsign := tmod_sign x y
  refine hx.between (fun hpos => ?_) (fun hneg => ?_)
  · have hnonneg := hsign.1 hpos
    omega
  · have hnonpos := hsign.2 (by omega)
    omega

/-- `q` and `r` are quotient and remainder of `x` and `y`: the quotient is cut off towards zero, and
wraps around in one case. -/
structure Divides (x y q r : Int) : Prop where
  modulo : q * y + r ≡ x [ZMOD unsignedBound]
  small : r.natAbs < y.natAbs
  sign : r = 0 ∨ r.sign = x.sign
  exact : ¬(x = -signedBound ∧ y = -1) → q = x.tdiv y
  wraps : x = -signedBound ∧ y = -1 → q = -signedBound ∧ r = 0

/-- What division computes are quotient and remainder. -/
private theorem divides_ofInt {u : Bool} {x y : Int} (hx : InRange u x) (hy : InRange u y)
    (hzero : y ≠ 0) : Divides x y (ofInt (x.tdiv y) u).toInt (ofInt (x.tmod y) u).toInt := by
  rw [toInt_ofInt (inRange_tmod hx y)]
  constructor
  · -- The quotient may wrap around, but the remainder is exact.
    have hquotient := (reduces_ofInt u (x.tdiv y)).modulo
    calc (ofInt (x.tdiv y) u).toInt * y + x.tmod y
        ≡ x.tdiv y * y + x.tmod y [ZMOD unsignedBound] := (hquotient.mul_right y).add_right _
      _ = x := Int.tdiv_mul_add_tmod x y
  · rw [Int.natAbs_tmod]
    exact Nat.mod_lt _ (by omega)
  · rw [Int.sign_tmod]
    split
    · rename_i hdvd
      exact .inl (Int.tmod_eq_zero_of_dvd hdvd)
    · exact .inr rfl
  · intro hleast
    exact toInt_ofInt (inRange_tdiv hx hy hzero hleast)
  · rintro ⟨rfl, rfl⟩
    cases u with
    | true => cases hx.1
    | false => decide

/-! ## Shifts -/

/-- After 64 places nothing is left modulo 2^64. -/
private theorem shiftLeft_modEq (x : Int) (n : Nat) :
    x <<< min n 64 ≡ x * 2 ^ n [ZMOD unsignedBound] := by
  rw [Int.shiftLeft_eq]
  by_cases hn : n ≤ 64
  · rw [Nat.min_eq_left hn]
  · have hpow : (2 : Int) ^ n = unsignedBound * 2 ^ (n - 64) := by
      rw [show n = 64 + (n - 64) by omega, pow_add]
      simp [unsignedBound]
    -- Both sides are multiples of 2^64.
    rw [Nat.min_eq_right (by omega), hpow]
    calc x * 2 ^ 64 ≡ 0 [ZMOD unsignedBound] :=
          Int.modEq_zero_iff_dvd.2 (Dvd.intro_left x rfl)
      _ ≡ x * (unsignedBound * 2 ^ (n - 64)) [ZMOD unsignedBound] :=
          (Int.modEq_zero_iff_dvd.2 (Dvd.dvd.mul_left (Dvd.intro _ rfl) x)).symm

/-- A quotient by a divisor that is larger than the dividend has no more than its sign. -/
private theorem ediv_of_bounded {x d : Int} (hle : -d ≤ x) (hlt : x < d) :
    x / d = if x < 0 then -1 else 0 := by
  split
  · have hunique := Int.ediv_emod_unique (a := x) (b := d) (q := -1) (r := x + d) (by omega)
    exact (hunique.2 (by omega)).1
  · exact Int.ediv_eq_zero_of_lt (by omega) hlt

/-- After 64 places only the sign is left, and it stays. -/
theorem shiftRight_eq {u : Bool} {x : Int} (hx : InRange u x) (n : Nat) :
    x >>> min n 64 = x / 2 ^ n := by
  have hshift : ∀ k : Nat, x >>> k = x / 2 ^ k := by
    intro k
    rw [Int.shiftRight_eq_div_pow]
    simp
  have hbound : -0x10000000000000000 ≤ x ∧ x < 0x10000000000000000 := by
    cases u with
    | true =>
      rw [inRange_unsigned] at hx
      omega
    | false =>
      rw [inRange_signed] at hx
      omega
  by_cases hn : n ≤ 64
  · rw [Nat.min_eq_left hn, hshift]
  · have hpow : (0x10000000000000000 : Int) ≤ 2 ^ n := by
      have hle : 2 ^ 64 ≤ 2 ^ n := Nat.pow_le_pow_right (by decide) (by omega)
      exact_mod_cast hle
    -- Both divisors are beyond the range, so only the sign is left with either.
    rw [Nat.min_eq_right (by omega), hshift, ediv_of_bounded (d := 2 ^ 64) hbound.1 hbound.2,
      ediv_of_bounded (d := 2 ^ n) (by omega) (by omega)]

/-- A shift to the right does not lead away from zero, nor past it. -/
private theorem inRange_ediv {u : Bool} {x : Int} (hx : InRange u x) (n : Nat) :
    InRange u (x / 2 ^ n) := by
  have hpos : (0 : Int) < 2 ^ n := Int.pow_pos (by decide)
  refine hx.between (fun h => ⟨?_, Int.ediv_le_self _ h⟩) (fun h => ⟨?_, ?_⟩)
  · exact Int.ediv_nonneg h hpos.le
  · have hmul : x * 2 ^ n ≤ x * 1 := Int.mul_le_mul_of_nonpos_left (by omega) (by omega)
    rw [Int.le_ediv_iff_mul_le hpos]
    omega
  · exact (Int.ediv_neg_of_neg_of_pos h hpos).le

/-! ## Operations -/

/-- An operator whose operands have been evaluated is applied to them as words. -/
theorem apply_evaluated (op : BinaryOp) (a b : Word) :
    Expression.apply false op a b = binary op a b := by
  unfold Expression.apply
  cases binary op a b <;> rfl

/-- The operator gives the integer `n` modulo 2^64, in the type of its result. -/
def Yields (op : BinaryOp) (a b : Word) (n : Int) : Prop :=
  ∃ w, Expression.apply false op a b = .ok w ∧ Reduces (op.unsigned a.unsigned b.unsigned) n w

/-- A shift by a number of places that is not negative has the result that it would have without the
limit of 64 places. -/
private theorem shift_of_nonneg {a b : Word} (h : 0 ≤ b.toInt) :
    Yields .shiftLeft a b (a.toInt * 2 ^ b.toInt.toNat) ∧
      ∃ w, Expression.apply false .shiftRight a b = .ok w ∧
        w.toInt = a.toInt / 2 ^ b.toInt.toNat := by
  have hnot : ¬b.toInt < 0 := by omega
  simp only [Yields, apply_evaluated, binary, shift, if_neg hnot]
  -- To the left the result is reduced, to the right it is in range anyway.
  refine ⟨⟨_, rfl, ?_⟩, _, rfl, ?_⟩
  · obtain ⟨htype, hrange, hmodulo⟩ :=
      reduces_ofInt a.unsigned (a.toInt <<< min b.toInt.toNat 64)
    exact ⟨htype, hrange, hmodulo.trans (shiftLeft_modEq _ _)⟩
  · have ha := inRange_toInt a
    simp only [Bool.false_eq_true, if_false]
    rw [shiftRight_eq ha, toInt_ofInt (inRange_ediv ha _)]

/-- The only operations without a result are divisions by zero and shifts by a negative number of
places. -/
theorem binary_eq_error_iff {op : BinaryOp} {a b : Word} {e : ArithmeticError} :
    binary op a b = .error e ↔
      ((op = .divide ∨ op = .remainder) ∧ (b.convert (a.unsigned || b.unsigned)).toInt = 0 ∧
        e = .divisionByZero) ∨
      ((op = .shiftLeft ∨ op = .shiftRight) ∧ b.toInt < 0 ∧ e = .negativeShift) := by
  cases op with
  -- Only these four operators can fail.
  | divide | remainder =>
    simp only [binary]
    split <;> simp_all [eq_comm]
  | shiftLeft | shiftRight =>
    simp only [binary, shift]
    split <;> simp_all [eq_comm]
  | _ => simp [binary]

/-- Arithmetic is exact modulo 2^64. Operands are converted to their common type, and every result
is in the range of its type. Sums, differences, products and negations are the exact ones modulo
2^64; a quotient is cut off towards zero, and its remainder is what is left of the dividend. Shifts
multiply with a power of two, or divide by one and round down, however many places they take. Only
a division by zero and a shift by a negative number of places fail. -/
theorem arithmetic_exact (a b : Word) :
    let u := a.unsigned || b.unsigned
    let x := (a.convert u).toInt
    let y := (b.convert u).toInt
    (Reduces u a.toInt (a.convert u) ∧ Reduces u b.toInt (b.convert u)) ∧
    (∀ op, (unary op a).unsigned = op.unsigned a.unsigned ∧
      InRange (op.unsigned a.unsigned) (unary op a).toInt) ∧
    (∀ op w, Expression.apply false op a b = .ok w →
      w.unsigned = op.unsigned a.unsigned b.unsigned ∧
        InRange (op.unsigned a.unsigned b.unsigned) w.toInt) ∧
    (Reduces a.unsigned (-a.toInt) (unary .negate a) ∧ Yields .add a b (x + y) ∧
      Yields .subtract a b (x - y) ∧ Yields .multiply a b (x * y)) ∧
    (y ≠ 0 → ∃ q r, Expression.apply false .divide a b = .ok q ∧
      Expression.apply false .remainder a b = .ok r ∧ Divides x y q.toInt r.toInt) ∧
    (0 ≤ b.toInt → Yields .shiftLeft a b (a.toInt * 2 ^ b.toInt.toNat) ∧
      ∃ w, Expression.apply false .shiftRight a b = .ok w ∧
        w.toInt = a.toInt / 2 ^ b.toInt.toNat) ∧
    ∀ op e, Expression.apply false op a b = .error e ↔
      ((op = .divide ∨ op = .remainder) ∧ y = 0 ∧ e = .divisionByZero) ∨
      ((op = .shiftLeft ∨ op = .shiftRight) ∧ b.toInt < 0 ∧ e = .negativeShift) := by
  intro u x y
  -- The operands are converted to a type that is unsigned if either of theirs is.
  have hx : Reduces u a.toInt (a.convert u) := by
    have hconvert := reduces_convert a u
    rwa [← Bool.or_assoc, Bool.or_self] at hconvert
  have hy : Reduces u b.toInt (b.convert u) := by
    have hconvert := reduces_convert b u
    rwa [Bool.or_left_comm, Bool.or_self] at hconvert
  refine ⟨⟨hx, hy⟩, ?_, ?_, ?_, ?_, shift_of_nonneg, ?_⟩
  · intro op
    rw [← unsigned_unary]
    exact ⟨rfl, inRange_toInt _⟩
  · intro op w h
    rw [apply_evaluated] at h
    rw [← unsigned_of_binary h]
    exact ⟨rfl, inRange_toInt w⟩
  · exact ⟨reduces_ofInt _ _, ⟨_, rfl, reduces_ofInt _ _⟩, ⟨_, rfl, reduces_ofInt _ _⟩,
      ⟨_, rfl, reduces_ofInt _ _⟩⟩
  · intro hzero
    refine ⟨ofInt (x.tdiv y) u, ofInt (x.tmod y) u, ?_, ?_, divides_ofInt hx.range hy.range hzero⟩
    · rw [apply_evaluated]
      exact if_neg hzero
    · rw [apply_evaluated]
      exact if_neg hzero
  · intro op e
    rw [apply_evaluated]
    exact binary_eq_error_iff

/-- The one quotient that wraps around. -/
example : binary .divide (ofInt (-signedBound)) (ofInt (-1)) = .ok (ofInt (-signedBound)) := by
  decide

/-! ## Comparisons -/

/-- A word is told by its type and the integer that it stands for. -/
theorem eq_of_toInt_eq {v w : Word} (htype : v.unsigned = w.unsigned)
    (hint : v.toInt = w.toInt) : v = w := by
  obtain ⟨bits, u⟩ := v
  obtain ⟨bits', u'⟩ := w
  obtain rfl : u = u' := htype
  have hbits : bits = bits' := by
    cases u with
    | true => exact BitVec.eq_of_toNat_eq (Int.ofNat.inj hint)
    | false => exact BitVec.eq_of_toInt_eq hint
  rw [hbits]

/-- A word counts as true just if it does not stand for zero, whatever its type is. -/
theorem isTrue_iff (w : Word) : w.isTrue = true ↔ w.toInt ≠ 0 := by
  have hzero : w.bits = 0 ↔ w.toInt = 0 := by
    constructor
    · intro h
      unfold toInt
      rw [h]
      split <;> rfl
    · intro h
      -- The word of this type that stands for zero has no bit set.
      have hsame : w = ofInt 0 w.unsigned := by
        refine eq_of_toInt_eq rfl (h.trans (toInt_ofInt ?_).symm)
        unfold InRange
        split <;> decide
      rw [hsame]
      rfl
  unfold isTrue
  rw [decide_eq_true_iff]
  exact not_congr hzero

/-- The operator asks whether `p` holds: its result is a signed one or zero. -/
def Asks (op : BinaryOp) (a b : Word) (p : Prop) [Decidable p] : Prop :=
  ∀ w, Expression.apply false op a b = .ok w ↔
    w.unsigned = false ∧ w.toInt = if p then 1 else 0

/-- The words for true and false stand for one and zero. -/
theorem eq_ofBool_iff (p : Prop) [Decidable p] (w : Word) :
    ofBool (decide p) = w ↔ w.unsigned = false ∧ w.toInt = if p then 1 else 0 := by
  -- A truth value is signed, and a word is told by its type and its value.
  have hvalue : (ofBool (decide p)).toInt = if p then 1 else 0 := by
    by_cases hp : p
    · simp only [hp, decide_true, if_true]
      rfl
    · simp only [hp, decide_false, if_false]
      rfl
  constructor
  · rintro rfl
    exact ⟨rfl, hvalue⟩
  · rintro ⟨htype, hint⟩
    exact eq_of_toInt_eq htype.symm (hvalue.trans hint.symm)

/-- Comparisons are those of the integers that the operands stand for in their common type, and a
negation asks whether its operand stands for zero. Two operands are equal just if the integers that
they stand for in their own types are equal modulo 2^64. -/
theorem comparisons_exact (a b : Word) :
    let u := a.unsigned || b.unsigned
    let x := (a.convert u).toInt
    let y := (b.convert u).toInt
    Asks .equal a b (x = y) ∧ Asks .notEqual a b (x ≠ y) ∧ Asks .less a b (x < y) ∧
    Asks .lessEqual a b (x ≤ y) ∧ Asks .greater a b (x > y) ∧ Asks .greaterEqual a b (x ≥ y) ∧
    (x = y ↔ a.toInt ≡ b.toInt [ZMOD unsignedBound]) ∧
    (∀ w, unary .not a = w ↔ w.unsigned = false ∧ w.toInt = if a.toInt = 0 then 1 else 0) := by
  intro u x y
  -- All comparisons make a truth value a word.
  have hasks : ∀ (op : BinaryOp) (p : Prop) [Decidable p],
      binary op a b = .ok (ofBool (decide p)) → Asks op a b p := by
    intro op p _ hop w
    rw [apply_evaluated, hop, Except.ok.injEq]
    exact eq_ofBool_iff p w
  refine ⟨hasks _ _ rfl, hasks _ _ rfl, hasks _ _ rfl, hasks _ _ rfl, hasks _ _ rfl,
    hasks _ _ rfl, ?_, fun w => ?_⟩
  · -- In the range of the common type integers that are equal modulo 2^64 are equal.
    have hx : Reduces (a.unsigned || u) a.toInt (a.convert u) := reduces_convert a u
    have hy : Reduces (b.unsigned || u) b.toInt (b.convert u) := reduces_convert b u
    have htypes : (a.unsigned || u) = u ∧ (b.unsigned || u) = u := by
      cases ha : a.unsigned <;> cases hb : b.unsigned <;> simp [u, ha, hb]
    rw [htypes.1] at hx
    rw [htypes.2] at hy
    constructor
    · intro hxy
      exact hx.modulo.symm.trans ((congrArg (· % unsignedBound) hxy).trans hy.modulo)
    · intro hab
      exact hx.range.eq_of_modEq hy.range ((hx.modulo.trans hab).trans hy.modulo.symm)
  · have hnot : unary .not a = ofBool (decide (a.toInt = 0)) := by
      have htrue : (!a.isTrue) = decide (a.toInt = 0) := by
        rw [Bool.eq_iff_iff, Bool.not_eq_true', ← Bool.not_eq_true, isTrue_iff, not_not,
          decide_eq_true_iff]
      show ofBool (!a.isTrue) = _
      rw [htrue]
    rw [hnot]
    exact eq_ofBool_iff _ w

/-! ## Bitwise operators -/

/-- The digit of an integer at a place of its binary form, in which a negative integer has ones
without end. -/
def digit (n : Int) (i : Nat) : Bool :=
  n / 2 ^ i % 2 = 1

/-- Integers that are equal modulo 2^64 have the same last 64 digits. -/
private theorem digit_eq_of_modEq {m n : Int} (h : m ≡ n [ZMOD unsignedBound]) {i : Nat}
    (hi : i < 64) : digit m i = digit n i := by
  obtain ⟨k, hk⟩ := (Int.modEq_iff_dvd.1 h.symm)
  -- Below the width, the modulus is a multiple of the next power of two.
  have hpow : unsignedBound = 2 ^ i * (2 * 2 ^ (63 - i)) := by
    calc unsignedBound = 2 ^ (i + 1 + (63 - i)) := by rw [show i + 1 + (63 - i) = 64 by omega]; rfl
      _ = 2 ^ i * (2 * 2 ^ (63 - i)) := by rw [pow_add, pow_succ, mul_assoc]
  have hm : m = n + 2 ^ i * (2 * (2 ^ (63 - i) * k)) := by
    rw [show m = n + (m - n) by omega, hk, hpow, mul_assoc, mul_assoc]
  have hne : (2 : Int) ^ i ≠ 0 := pow_ne_zero i (by decide)
  unfold digit
  rw [hm, Int.add_mul_ediv_left _ _ hne, Int.add_mul_emod_self_left]

/-- The digits of the integer that a word stands for are its bits. -/
private theorem digit_toInt (w : Word) {i : Nat} (hi : i < 64) :
    digit w.toInt i = w.bits.getLsbD i := by
  have hbits : w.toInt ≡ (w.bits.toNat : Int) [ZMOD unsignedBound] := by
    have hreduces := (reduces_convert w true).modulo
    unfold convert at hreduces
    rw [Bool.or_true] at hreduces
    exact hreduces.symm
  rw [digit_eq_of_modEq hbits hi, ← BitVec.testBit_toNat, Nat.testBit_eq_decide_div_mod_eq]
  unfold digit
  norm_cast

/-- A word is told by its type and its digits. -/
private theorem eq_of_digits {v w : Word} (htype : v.unsigned = w.unsigned)
    (hdigits : ∀ i < 64, digit v.toInt i = digit w.toInt i) : v = w := by
  obtain ⟨bits, u⟩ := v
  obtain ⟨bits', u'⟩ := w
  obtain rfl : u = u' := htype
  have hbits : bits = bits' := by
    refine BitVec.eq_of_getLsbD_eq fun i hi => ?_
    have hdigit := hdigits i hi
    rwa [digit_toInt _ hi, digit_toInt _ hi] at hdigit
  rw [hbits]

/-- The operator computes every digit of its result from those of its operands by `f`. -/
def Combines (op : BinaryOp) (f : Bool → Bool → Bool) (a b : Word) : Prop :=
  ∀ w, Expression.apply false op a b = .ok w ↔
    w.unsigned = (a.unsigned || b.unsigned) ∧
      ∀ i < 64, digit w.toInt i = f (digit a.toInt i) (digit b.toInt i)

/-- The bitwise operators work on the digits of the integers that their operands stand for, each in
its own type. A complement inverts every digit, so it is the integer before the negated one. -/
theorem bitwise_exact (a b : Word) :
    Combines .bitAnd (· && ·) a b ∧ Combines .bitOr (· || ·) a b ∧ Combines .bitXor (· ^^ ·) a b ∧
    (∀ i < 64, digit (unary .complement a).toInt i = !digit a.toInt i) ∧
    Reduces a.unsigned (-a.toInt - 1) (unary .complement a) := by
  -- One argument for all three: a result is told by its digits, which are bits.
  have hcombines : ∀ (op : BinaryOp) (f : Bool → Bool → Bool) (bits : BitVec 64),
      binary op a b = .ok ⟨bits, a.unsigned || b.unsigned⟩ →
      (∀ i, bits.getLsbD i = f (a.bits.getLsbD i) (b.bits.getLsbD i)) → Combines op f a b := by
    intro op f bits hop hbits w
    have hdigits : ∀ i < 64, digit (⟨bits, a.unsigned || b.unsigned⟩ : Word).toInt i =
        f (digit a.toInt i) (digit b.toInt i) := by
      intro i hi
      rw [digit_toInt _ hi, digit_toInt _ hi, digit_toInt _ hi]
      exact hbits i
    rw [apply_evaluated, hop, Except.ok.injEq]
    constructor
    · rintro rfl
      exact ⟨rfl, hdigits⟩
    · rintro ⟨htype, hw⟩
      exact eq_of_digits htype.symm fun i hi => (hdigits i hi).trans (hw i hi).symm
  refine ⟨hcombines _ _ _ rfl fun i => BitVec.getLsbD_and,
    hcombines _ _ _ rfl fun i => BitVec.getLsbD_or,
    hcombines _ _ _ rfl fun i => BitVec.getLsbD_xor, fun i hi => ?_, ?_⟩
  · rw [digit_toInt _ hi, digit_toInt _ hi]
    show (~~~a.bits).getLsbD i = _
    rw [BitVec.getLsbD_not]
    simp [hi]
  · refine ⟨rfl, inRange_toInt (unary .complement a), ?_⟩
    -- With a sign, both the bits and their complement may stand for a negative integer.
    have hlt := a.bits.isLt
    have hnot : (~~~a.bits).toNat = 2 ^ 64 - 1 - a.bits.toNat := BitVec.toNat_not
    show toInt ⟨~~~a.bits, a.unsigned⟩ ≡ _ [ZMOD unsignedBound]
    unfold toInt Int.ModEq unsignedBound
    cases a.unsigned with
    | true =>
      simp only [if_true, hnot]
      omega
    | false =>
      simp only [Bool.false_eq_true, if_false, BitVec.toInt_eq_toNat_cond, hnot]
      split <;> split <;> omega

end Word

end Preproc
