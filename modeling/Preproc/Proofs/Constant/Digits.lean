import Mathlib.Data.Nat.Digits.Lemmas
import Preproc.Constant

/-!
# Written digits

A number is written in a base as a row of digits, the most significant one first. The digits beyond
nine are letters, and each of them is a small letter or a capital. `Digit` holds a digit as it is
written, and `Digit.number` says what a row of them stands for, whatever way it is read.

The characters of digits are exactly those that count as digits of the base, so a row of digits is
read up to its end, and no further than what follows it allows.

## Key results

- `Digit.digitIn?_char`, `Digit.exists_char_eq`: the characters that are digits of a base
- `Digit.readInteger?_chars`: a row of digits is read as its number
- `Digit.exists_number_eq`: every number has a row of digits, without a zero in front
-/

namespace Preproc

/-- A digit as it is written in a base: its value, and whether its letter is a capital. -/
structure Digit (base : Nat) where
  value : Nat
  lt : value < base
  upper : Bool := false
deriving DecidableEq

namespace Digit

variable {base : Nat}

def char (d : Digit base) : Char :=
  if d.upper then d.value.digitChar.toUpper else d.value.digitChar

def chars (ds : List (Digit base)) : List Char :=
  ds.map char

/-- The number that a row of digits stands for. -/
def number (ds : List (Digit base)) : Nat :=
  Nat.ofDigits base (ds.map (·.value)).reverse

/-! ## Characters -/

/-- What holds of all digits below a limit, in both cases, holds of the digits of a base up to the
limit. -/
theorem char_induction {p : Char → Nat → Prop} {limit : Nat}
    (h : ∀ v < limit, p v.digitChar v ∧ p v.digitChar.toUpper v) (hbase : base ≤ limit)
    (d : Digit base) : p d.char d.value := by
  have hd := h d.value (Nat.lt_of_lt_of_le d.lt hbase)
  unfold char
  split
  · exact hd.2
  · exact hd.1

/-- The character of a digit has the digit's value. -/
theorem digitValue?_char (hbase : base ≤ 16) (d : Digit base) :
    Text.digitValue? d.char = some d.value :=
  char_induction (p := fun c v => Text.digitValue? c = some v) (by decide) hbase d

/-- The character of a digit is a digit of its base. -/
theorem digitIn?_char (hbase : base ≤ 16) (d : Digit base) :
    Text.digitIn? base d.char = some d.value := by
  rw [Text.digitIn?, digitValue?_char hbase, Option.filter_some, if_pos (decide_eq_true d.lt)]

/-- Only the digit of value zero is written as a zero. -/
theorem char_eq_zero_iff (hbase : base ≤ 16) (d : Digit base) : d.char = '0' ↔ d.value = 0 :=
  char_induction (p := fun c v => c = '0' ↔ v = 0) (by decide) hbase d

/-- A digit stands at its value behind the zero, the small or the capital `a`. -/
private theorem toNat_of_digitValue? {c : Char} {v : Nat} (h : Text.digitValue? c = some v) :
    (v < 10 ∧ c.toNat = v + 0x30) ∨ (10 ≤ v ∧ c.toNat = v + 0x57) ∨
      (10 ≤ v ∧ c.toNat = v + 0x37) := by
  -- The three ranges of characters, as ranges of code points.
  have hle : ∀ a b : Char, a ≤ b ↔ a.toNat ≤ b.toNat := fun _ _ => .rfl
  unfold Text.digitValue? at h
  split at h
  · rename_i hdigit
    rw [Char.isDigit_iff_toNat] at hdigit
    obtain rfl := Option.some.inj h
    have hzero : '0'.toNat = 0x30 := rfl
    have hnine : '9'.toNat = 0x39 := rfl
    omega
  · split at h
    · rename_i hsmall
      simp only [Bool.and_eq_true, decide_eq_true_eq, hle] at hsmall
      obtain rfl := Option.some.inj h
      have ha : 'a'.toNat = 0x61 := rfl
      omega
    · split at h
      · rename_i hcapital
        simp only [Bool.and_eq_true, decide_eq_true_eq, hle] at hcapital
        obtain rfl := Option.some.inj h
        have hA : 'A'.toNat = 0x41 := rfl
        omega
      · cases h

/-- Nothing else counts as a digit. -/
theorem exists_char_eq (hbase : base ≤ 16) {c : Char}
    (h : (Text.digitIn? base c).isSome = true) : ∃ d : Digit base, d.char = c := by
  obtain ⟨v, hv⟩ := Option.isSome_iff_exists.1 h
  obtain ⟨hvalue, hlt⟩ := Option.filter_eq_some_iff.1 hv
  have hlt : v < base := of_decide_eq_true hlt
  have hsmall : ∀ v < 16, v.digitChar = Char.ofNat (if v < 10 then v + 0x30 else v + 0x57) := by
    decide
  have hcapital : ∀ v < 16, 10 ≤ v → v.digitChar.toUpper = Char.ofNat (v + 0x37) := by decide
  have hv16 := Nat.lt_of_lt_of_le hlt hbase
  -- One case for each of the three ranges, and in each the character is known by its code point.
  rcases toNat_of_digitValue? hvalue with ⟨hten, hc⟩ | ⟨hten, hc⟩ | ⟨hten, hc⟩
  · refine ⟨⟨v, hlt, false⟩, (hsmall v hv16).trans ?_⟩
    rw [if_pos hten, ← hc, Char.ofNat_toNat]
  · refine ⟨⟨v, hlt, false⟩, (hsmall v hv16).trans ?_⟩
    rw [if_neg (by omega), ← hc, Char.ofNat_toNat]
  · refine ⟨⟨v, hlt, true⟩, (hcapital v hv16 hten).trans ?_⟩
    rw [← hc, Char.ofNat_toNat]

/-! ## Rows of digits -/

/-- Values are put together one by one, each time with what came before moved by one place. -/
theorem ofDigits_reverse_eq_foldl (b : Nat) (vs : List Nat) :
    Nat.ofDigits b vs.reverse = vs.foldl (fun n v => n * b + v) 0 := by
  rw [Nat.ofDigits_eq_foldr, List.foldr_reverse]
  congr 1
  funext n v
  rw [Nat.cast_id, Nat.mul_comm, Nat.add_comm]

/-- A number is read from its first digit to its last. -/
theorem number_eq_foldl (ds : List (Digit base)) :
    number ds = (ds.map (·.value)).foldl (fun n v => n * base + v) 0 :=
  ofDigits_reverse_eq_foldl base _

/-- A zero in front does not change a number. -/
theorem number_cons_zero {d : Digit base} (hd : d.value = 0) (ds : List (Digit base)) :
    number (d :: ds) = number ds := by
  rw [number, List.map_cons, hd, Nat.ofDigits_reverse_zero_cons, number]

/-- Each digit is one character. -/
@[simp]
theorem length_chars (ds : List (Digit base)) : (chars ds).length = ds.length :=
  List.length_map _

/-- What holds of all digits below a limit, in both cases, holds of every character in a row of
digits. -/
theorem forall_mem_chars {p : Char → Prop} {limit : Nat}
    (h : ∀ v < limit, p v.digitChar ∧ p v.digitChar.toUpper) (hbase : base ≤ limit)
    (ds : List (Digit base)) : ∀ c ∈ chars ds, p c := by
  intro c hc
  obtain ⟨d, -, rfl⟩ := List.mem_map.1 hc
  exact char_induction (p := fun c _ => p c) h hbase d

section Reading

variable (hbase : base ≤ 16)
include hbase

/-- All characters of a row of digits are digits of the base. -/
theorem isSome_digitIn?_of_mem {ds : List (Digit base)} {c : Char} (hc : c ∈ chars ds) :
    (Text.digitIn? base c).isSome = true := by
  obtain ⟨d, -, rfl⟩ := List.mem_map.1 hc
  rw [digitIn?_char hbase, Option.isSome_some]

/-- A character that is no digit of the base is not in a row of digits. -/
theorem notMem_chars {c : Char} (h : Text.digitIn? base c = none) (ds : List (Digit base)) :
    c ∉ chars ds := by
  intro hc
  have hdigit := isSome_digitIn?_of_mem hbase hc
  rw [h] at hdigit
  cases hdigit

/-- A row of digits goes on the number that was read so far. -/
private theorem readDigits?_chars (acc : Nat) (ds : List (Digit base)) :
    Text.readDigits? base acc (chars ds) =
      some ((ds.map (·.value)).foldl (fun n v => n * base + v) acc) := by
  induction ds generalizing acc with
  | nil => rfl
  | cons d ds ih =>
    rw [chars, List.map_cons, Text.readDigits?.eq_def]
    split
    · rename_i heq
      cases heq
    · -- A mark between digits is skipped, and no digit is one.
      rename_i c cs heq
      have hmark : '_' ∈ chars [d] := List.mem_singleton.2 (List.cons.inj heq).1.symm
      exact absurd hmark (notMem_chars hbase rfl [d])
    · rename_i heq
      obtain ⟨rfl, rfl⟩ := List.cons.inj heq
      rw [digitIn?_char hbase]
      exact ih _

/-- A row of at least one digit is read as its number. -/
private theorem readMagnitude?_chars {ds : List (Digit base)} (hds : ds ≠ []) :
    Text.readMagnitude? base (chars ds) = some (number ds) := by
  cases ds with
  | nil => exact absurd rfl hds
  | cons d ds =>
    rw [chars, List.map_cons, Text.readMagnitude?, digitIn?_char hbase, Option.bind_some,
      ← chars, readDigits?_chars hbase, number_eq_foldl, List.map_cons, List.foldl_cons,
      Nat.zero_mul, Nat.zero_add]

/-- The letter that marks a base is no digit of that base. -/
private theorem dropBaseMark_chars (ds : List (Digit base)) :
    Text.dropBaseMark base (chars ds) = chars ds := by
  have hmarks : ((Text.digitIn? 16 'x').isSome || (Text.digitIn? 16 'X').isSome ||
      (Text.digitIn? 8 'o').isSome || (Text.digitIn? 8 'O').isSome ||
      (Text.digitIn? 2 'b').isSome || (Text.digitIn? 2 'B').isSome) = false := by decide
  rw [Text.dropBaseMark.eq_def]
  split
  · rename_i m cs heq
    refine (if_neg fun hm => ?_).trans heq.symm
    -- A mark would be the second character, which is a digit.
    have hmem : m ∈ chars ds := heq ▸ List.mem_cons_of_mem _ List.mem_cons_self
    have hdigit := isSome_digitIn?_of_mem hbase hmem
    grind
  · rfl

/-- A row of digits is too long just if it has too many digits in base ten. -/
private theorem isOverlong_chars (ds : List (Digit base)) :
    Text.isOverlong base (chars ds) = (base = 10 && Text.maxDecimalDigits < ds.length) := by
  -- All characters count, since none is a mark between digits.
  have hall : (chars ds).filter (· ≠ '_') = chars ds := by
    rw [List.filter_eq_self]
    intro c hc
    exact decide_eq_true fun h => notMem_chars hbase rfl ds (h ▸ hc)
  rw [Text.isOverlong, hall, length_chars]

/-- A row of digits is read as its number, unless it is too long a row in base ten. -/
theorem readInteger?_chars {ds : List (Digit base)} (hds : ds ≠ []) :
    Text.readInteger? base (chars ds) =
      if base = 10 ∧ Text.maxDecimalDigits < ds.length then none else some (number ds : Int) := by
  -- Digits are plain characters, and none of them is left out at the margins.
  have hascii : (chars ds).mapM Text.asciiForm? = some (chars ds) :=
    Text.mapM_asciiForm? (forall_mem_chars (p := fun c => c.toNat < 0x80) (by decide) hbase ds)
  have hmargin : ∀ c ∈ chars ds, Text.isMargin c = false :=
    forall_mem_chars (p := fun c => Text.isMargin c = false) (by decide) hbase ds
  have hcore : (((chars ds).dropWhile Text.isMargin).reverse.dropWhile Text.isMargin).reverse =
      chars ds := by
    rw [Text.dropWhile_isMargin hmargin, Text.dropWhile_isMargin (by simpa using hmargin),
      List.reverse_reverse]
  have hunsigned : Text.readUnsigned? base (chars ds) =
      if base = 10 ∧ Text.maxDecimalDigits < ds.length then none else some (number ds) := by
    simp only [Text.readUnsigned?, dropBaseMark_chars hbase, isOverlong_chars hbase,
      readMagnitude?_chars hbase hds, Bool.and_eq_true, decide_eq_true_eq]
  simp only [Text.readInteger?, hascii, Option.bind_some, hcore]
  -- The first two cases are those of a sign, which is no digit.
  split
  · rename_i heq
    exact absurd (heq ▸ List.mem_cons_self) (notMem_chars hbase (c := '-') rfl ds)
  · rename_i heq
    exact absurd (heq ▸ List.mem_cons_self) (notMem_chars hbase (c := '+') rfl ds)
  · rw [hunsigned]
    split <;> rfl

end Reading

/-! ## Numbers -/

/-- Values below the base are those of some digits. -/
theorem exists_map_value_eq {vs : List Nat} (h : ∀ v ∈ vs, v < base) :
    ∃ ds : List (Digit base), ds.map (·.value) = vs := by
  induction vs with
  | nil => exact ⟨[], rfl⟩
  | cons v vs ih =>
    obtain ⟨ds, hds⟩ := ih fun x hx => h x (List.mem_cons_of_mem v hx)
    exact ⟨⟨v, h v List.mem_cons_self, false⟩ :: ds, congrArg (v :: ·) hds⟩

/-- Every number has a row of digits, which starts with zero for zero only. -/
theorem exists_number_eq (hbase : 1 < base) (n : Nat) :
    ∃ (d : Digit base) (ds : List (Digit base)),
      number (d :: ds) = n ∧ (n ≠ 0 → d.value ≠ 0) := by
  by_cases hn : n = 0
  · exact ⟨⟨0, by omega, false⟩, [], by simp [number, hn], fun h => absurd hn h⟩
  · have hlt : ∀ v ∈ (base.digits n).reverse, v < base :=
      fun v hv => Nat.digits_lt_base hbase (List.mem_reverse.1 hv)
    obtain ⟨ds, hds⟩ := exists_map_value_eq hlt
    have hnumber : number ds = n := by
      rw [number, hds, List.reverse_reverse, Nat.ofDigits_digits]
    cases ds with
    | nil => exact absurd hnumber.symm hn
    | cons d ds =>
      refine ⟨d, ds, hnumber, fun _ => ?_⟩
      -- The first digit is the last of Mathlib's list, which is not zero.
      have hlast := Nat.getLast_digit_ne_zero base hn
      have hdigits : base.digits n = (ds.map (·.value)).reverse ++ [d.value] := by
        rw [← List.reverse_reverse (base.digits n), ← hds, List.map_cons, List.reverse_cons]
      simpa only [hdigits, List.getLast_append_singleton] using hlast

/-- A number is at least the power of its first digit's place. -/
theorem pow_length_le_number (hbase : 1 < base) {d : Digit base} (hd : d.value ≠ 0)
    (ds : List (Digit base)) : base ^ ds.length ≤ number (d :: ds) := by
  obtain ⟨b, rfl⟩ := Nat.exists_eq_add_of_le' hbase
  have hlast : ((d :: ds).map (·.value)).reverse.getLast (by simp) ≠ 0 := by
    simpa only [List.getLast_reverse, List.map_cons, List.head_cons] using hd
  -- Mathlib's bound has one place more on both sides.
  have hle := Nat.pow_length_le_mul_ofDigits (b := b) _ hlast
  rw [List.length_reverse, List.length_map, List.length_cons, pow_succ, Nat.mul_comm] at hle
  exact Nat.le_of_mul_le_mul_left hle (by omega)

end Digit

end Preproc
