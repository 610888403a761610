import Preproc.Proofs.Constant.Digits
import Preproc.Proofs.Expression.Arithmetic

/-!
# Integer literals

An integer literal is written in base ten, eight, sixteen or two. The last two start with a mark of
their base; a literal in base eight starts with a zero, and one in base ten does not. Single quotes
may stand between its digits, and a suffix behind them. `IntegerLiteral` holds a literal as it is
written.

A literal is worth the number that its digits stand for, as long as that has no more than 64 bits.
The cases that overlap are told apart by what is no digit: no letter of a suffix is one, and no
letter that marks a base is a digit of the bases without a mark. A zero alone is read in base ten.

## Key results

- `Constant.splitSuffix_append`: a suffix is split off whole
- `IntegerLiteral.readInteger?_splitBase`: the digits are read in the base of the literal
- `IntegerLiteral.exists_number_eq`: every number has a literal in every base, with any suffix
- `Constant.integer_decodes`: what a literal is worth
-/

namespace Preproc

/-! ## Literals as they are written -/

/-- The base of a literal, and whether the letter of its mark is a capital. -/
inductive Radix where
  | decimal
  | octal
  | hexadecimal (capital : Bool)
  | binary (capital : Bool)
deriving DecidableEq

namespace Radix

def base : Radix → Nat
  | decimal => 10
  | octal => 8
  | hexadecimal _ => 16
  | binary _ => 2

/-- What stands before the digits. -/
def mark : Radix → List Char
  | decimal | octal => []
  | hexadecimal capital => ['0', if capital then 'X' else 'x']
  | binary capital => ['0', if capital then 'B' else 'b']

/-- Whether a literal can start with a digit of this value. -/
def startsWith : Radix → Nat → Bool
  | decimal, v => v ≠ 0
  | octal, v => v = 0
  | hexadecimal _, _ | binary _, _ => true

private theorem base_le (r : Radix) : r.base ≤ 16 := by
  cases r <;> simp [base]

private theorem one_lt_base (r : Radix) : 1 < r.base := by
  cases r <;> simp [base]

end Radix

/-- The suffixes of integer literals in small letters. -/
def literalSuffixes : List (List Char) :=
  [[], ['u'], ['l'], ['l', 'l'], ['u', 'l'], ['l', 'u'], ['u', 'l', 'l'], ['l', 'l', 'u']]

/-- An integer literal as it is written. -/
structure IntegerLiteral where
  radix : Radix
  first : Digit radix.base
  leading : radix.startsWith first.value = true
  /-- The digits behind the first, and whether a quote stands before each. -/
  more : List (Bool × Digit radix.base)
  /-- The suffix, in any case of its letters. -/
  suffix : List Char
  suffix_mem : suffix.map Char.toLower ∈ literalSuffixes

namespace IntegerLiteral

def digits (l : IntegerLiteral) : List (Digit l.radix.base) :=
  l.first :: l.more.map (·.2)

/-- The number that the literal spells. -/
def number (l : IntegerLiteral) : Nat :=
  Digit.number l.digits

/-- The digits with the quotes between them. -/
def separated (l : IntegerLiteral) : List Char :=
  l.first.char :: l.more.flatMap fun d => if d.1 then ['\'', d.2.char] else [d.2.char]

def spelling (l : IntegerLiteral) : String :=
  String.ofList (l.radix.mark ++ l.separated ++ l.suffix)

end IntegerLiteral

/-! ## The suffix -/

/-- What has no character in common with a text does not reach into it. -/
theorem suffix_append_iff {s b t : List Char} (h : ∀ c ∈ s, c ∉ b) : s <:+ b ++ t ↔ s <:+ t := by
  constructor
  · intro hs
    rcases List.suffix_or_suffix_of_suffix hs (List.suffix_append b t) with hst | ⟨x, rfl⟩
    · exact hst
    · -- What stands before `t` is an end of `b`, so there is nothing.
      have hx := ((List.suffix_append_inj_of_length_eq rfl).1 hs).1
      cases x with
      | nil => exact List.suffix_refl t
      | cons c x => exact absurd (hx.subset List.mem_cons_self) (h c List.mem_cons_self)
  · intro hs
    exact List.IsSuffix.trans hs (List.suffix_append b t)

namespace Constant

/-- A suffix is split off whole from a text without its letters. -/
theorem splitSuffix_append {body suffix : List Char}
    (hbody : ∀ c ∈ body, c.toLower ∉ ['u', 'l'])
    (hsuffix : suffix.map Char.toLower ∈ literalSuffixes) :
    splitSuffix (body ++ suffix) = (body, decide ('u' ∈ suffix.map Char.toLower)) := by
  -- All suffixes are made of these two letters, so none of them reaches into the body.
  have hletters : ∀ s ∈ suffixes, ∀ c ∈ s.1, c ∉ body.map Char.toLower := by
    have hall : (suffixes.all fun s => s.1.all (['u', 'l'].contains ·)) = true := by decide
    intro s hs c hc hmem
    obtain ⟨x, hx, rfl⟩ := List.mem_map.1 hmem
    have hletter := List.all_eq_true.1 (List.all_eq_true.1 hall s hs) _ hc
    exact hbody x hx (List.contains_iff_mem.1 hletter)
  -- So the first entry that fits is the same with the body and without it.
  have hfind : suffixes.find? (·.1.isSuffixOf ((body ++ suffix).map Char.toLower)) =
      suffixes.find? (·.1.isSuffixOf (suffix.map Char.toLower)) := by
    rw [← List.head?_filter, ← List.head?_filter, List.filter_congr fun s hs => ?_]
    rw [List.map_append, Bool.eq_iff_iff, List.isSuffixOf_iff_suffix, List.isSuffixOf_iff_suffix,
      suffix_append_iff (hletters s hs)]
  have hfound : ∀ s ∈ literalSuffixes, suffixes.find? (·.1.isSuffixOf s) =
      if s = [] then none else some (s, decide ('u' ∈ s)) := by decide
  rw [splitSuffix, hfind, hfound _ hsuffix]
  by_cases hnil : suffix = []
  · simp [hnil]
  · simp [hnil]

/-! ## The base -/

/-- A text that does not start with a zero is read in base ten. -/
private theorem splitBase_decimal {cs : List Char} (h : cs.head? ≠ some '0') :
    splitBase cs = (10, cs) := by
  unfold splitBase
  split <;> simp_all

/-- A zero that no mark follows is a digit, and the text is read in base eight. -/
private theorem splitBase_octal {c : Char} (hc : c ∉ ['x', 'X', 'b', 'B']) (cs : List Char) :
    splitBase ('0' :: c :: cs) = (8, '0' :: c :: cs) := by
  unfold splitBase
  split <;> simp_all

end Constant

namespace IntegerLiteral

open Constant

variable (l : IntegerLiteral)

/-- A literal has at least one digit. -/
theorem digits_ne_nil : l.digits ≠ [] :=
  List.cons_ne_nil _ _

/-- The digits are read in the base of the literal; a zero alone is zero in any base. -/
theorem readInteger?_splitBase :
    let b := splitBase (l.radix.mark ++ Digit.chars l.digits)
    Text.readInteger? b.1 b.2 = Text.readInteger? l.radix.base (Digit.chars l.digits) := by
  -- Only the bases without a mark have to be told from the first digits.
  obtain ⟨radix, first, leading, more, suffix, hsuffix⟩ := l
  cases radix with
  | decimal =>
    have hfirst : first.char ≠ '0' := fun h =>
      of_decide_eq_true leading ((first.char_eq_zero_iff (by decide)).1 h)
    have hsplit : splitBase (Digit.chars (first :: more.map (·.2))) =
        (10, Digit.chars (first :: more.map (·.2))) :=
      splitBase_decimal fun h => hfirst (Option.some.inj h)
    exact congrArg (fun b => Text.readInteger? b.1 b.2) hsplit
  | octal =>
    have hzero : first.char = '0' :=
      (first.char_eq_zero_iff (by decide)).2 (of_decide_eq_true leading)
    cases more with
    | nil =>
      -- A zero alone is split off as a number of base ten, where it is the same number.
      show Text.readInteger? (splitBase [first.char]).1 (splitBase [first.char]).2 =
        Text.readInteger? 8 [first.char]
      rw [hzero]
      decide
    | cons d more =>
      have hsecond : d.2.char ∉ ['x', 'X', 'b', 'B'] :=
        Digit.char_induction (p := fun c _ => c ∉ ['x', 'X', 'b', 'B']) (by decide)
          (Nat.le_refl 8) d.2
      have hsplit : splitBase (Digit.chars (first :: (d :: more).map (·.2))) =
          (8, Digit.chars (first :: (d :: more).map (·.2))) := by
        rw [Digit.chars, List.map_cons, hzero]
        exact splitBase_octal hsecond _
      exact congrArg (fun b => Text.readInteger? b.1 b.2) hsplit
  | hexadecimal capital => cases capital <;> rfl
  | binary capital => cases capital <;> rfl

/-- No quote stands in a suffix. -/
private theorem quote_notMem_suffix : '\'' ∉ l.suffix := by
  have hletters : (literalSuffixes.all fun s => !s.contains '\'') = true := by decide
  intro hmem
  have hlower : '\'' ∈ l.suffix.map Char.toLower := List.mem_map.2 ⟨'\'', hmem, by decide⟩
  have hnone := List.all_eq_true.1 hletters _ l.suffix_mem
  rw [List.contains_iff_mem.2 hlower] at hnone
  cases hnone

/-- Without the quotes between them, the digits are left. -/
private theorem filter_separated : l.separated.filter (· ≠ '\'') = Digit.chars l.digits := by
  -- No digit is lost, since none of them is written as a quote.
  have hdigit : ∀ d : Digit l.radix.base, d.char ≠ '\'' := by
    intro d h
    have hmem : '\'' ∈ Digit.chars [d] := List.mem_singleton.2 h.symm
    exact Digit.notMem_chars l.radix.base_le rfl [d] hmem
  have hmore : ∀ ds : List (Bool × Digit l.radix.base),
      (ds.flatMap fun d => if d.1 then ['\'', d.2.char] else [d.2.char]).filter (· ≠ '\'') =
        Digit.chars (ds.map (·.2)) := by
    intro ds
    induction ds with
    | nil => rfl
    | cons d ds ih =>
      rw [List.flatMap_cons, List.filter_append, ih]
      split <;> simp [Digit.chars, hdigit]
  rw [separated, List.filter_cons, if_pos (decide_eq_true (hdigit _)), hmore]
  rfl

/-- Without its quotes a literal is its mark, its digits and its suffix. -/
private theorem filter_spelling :
    l.spelling.toList.filter (· ≠ '\'') =
      (l.radix.mark ++ Digit.chars l.digits) ++ l.suffix := by
  -- Only between digits stand separators.
  have hmark : l.radix.mark.filter (· ≠ '\'') = l.radix.mark := by
    cases l.radix with
    | decimal | octal => rfl
    | hexadecimal capital | binary capital => cases capital <;> rfl
  have hsuffix : l.suffix.filter (· ≠ '\'') = l.suffix := by
    rw [List.filter_eq_self]
    intro c hc
    exact decide_eq_true fun h => l.quote_notMem_suffix (h ▸ hc)
  rw [spelling, String.toList_ofList, List.filter_append, List.filter_append, hmark, hsuffix,
    filter_separated]

/-- No letter of a suffix marks a base or is a digit. -/
private theorem splitSuffix_spelling :
    splitSuffix (l.spelling.toList.filter (· ≠ '\'')) =
      (l.radix.mark ++ Digit.chars l.digits, decide ('u' ∈ l.suffix.map Char.toLower)) := by
  rw [filter_spelling]
  refine splitSuffix_append (fun c hc => ?_) l.suffix_mem
  rcases List.mem_append.1 hc with hmark | hdigit
  · -- No letter of a mark can start a suffix.
    have hall : (l.radix.mark.all fun c => !(['u', 'l'].contains c.toLower)) = true := by
      cases l.radix with
      | decimal | octal => rfl
      | hexadecimal capital | binary capital => cases capital <;> decide
    simpa using List.all_eq_true.1 hall c hmark
  · exact Digit.forall_mem_chars (p := fun c => c.toLower ∉ ['u', 'l']) (by decide)
      l.radix.base_le l.digits c hdigit

/-- What a literal is read as. Base ten has a limit on the number of digits. -/
private theorem integer_spelling :
    integer l.spelling =
      if l.radix = .decimal ∧ Text.maxDecimalDigits < l.digits.length then
        .error (.notInteger l.spelling)
      else if 2 ^ 64 ≤ l.number then .error (.tooLarge l.spelling)
      else .ok (.ofInt l.number
        (decide ('u' ∈ l.suffix.map Char.toLower) || decide (2 ^ 63 ≤ l.number))) := by
  -- The limit on the number of digits holds in base ten only.
  have hdecimal : l.radix.base = 10 ↔ l.radix = .decimal := by
    cases l.radix <;> simp [Radix.base]
  have hread := l.readInteger?_splitBase.trans
    (Digit.readInteger?_chars l.radix.base_le l.digits_ne_nil)
  simp only [hdecimal] at hread
  simp only [integer, splitSuffix_spelling, hread]
  by_cases hlong : l.radix = .decimal ∧ Text.maxDecimalDigits < l.digits.length
  · simp only [if_pos hlong]
  · -- What is left is to read the bounds on integers as bounds on the number.
    have hunsigned : Word.unsignedBound ≤ (Digit.number l.digits : Int) ↔ 2 ^ 64 ≤ l.number := by
      unfold Word.unsignedBound number
      omega
    have hsigned : Word.signedBound ≤ (Digit.number l.digits : Int) ↔ 2 ^ 63 ≤ l.number := by
      unfold Word.signedBound number
      omega
    simp only [if_neg hlong, hunsigned, hsigned]
    rfl

/-- A number of 64 bits has few digits in base ten. -/
private theorem length_digits_le (hradix : l.radix = .decimal) (h : l.number < 2 ^ 64) :
    l.digits.length ≤ Text.maxDecimalDigits := by
  obtain ⟨radix, first, leading, more, suffix, hsuffix⟩ := l
  cases hradix
  have hpow := Digit.pow_length_le_number (by decide) (of_decide_eq_true leading) (more.map (·.2))
  -- Twenty places are enough for 64 bits, far below the limit.
  have hlt : 10 ^ (more.map (·.2)).length < 10 ^ 20 :=
    calc 10 ^ (more.map (·.2)).length ≤ _ := hpow
      _ < 2 ^ 64 := h
      _ < 10 ^ 20 := by norm_num
  have hshort := (Nat.pow_lt_pow_iff_right (by decide)).1 hlt
  show (more.map (·.2)).length + 1 ≤ 4300
  omega

/-- Every number has a literal in every base, but zero has none without a zero in front. -/
theorem exists_number_eq (radix : Radix) {suffix : List Char}
    (hsuffix : suffix.map Char.toLower ∈ literalSuffixes) {n : Nat}
    (hn : radix = .decimal → n ≠ 0) :
    ∃ l : IntegerLiteral, l.radix = radix ∧ l.suffix = suffix ∧ l.number = n := by
  obtain ⟨d, ds, hnumber, hd⟩ := Digit.exists_number_eq radix.one_lt_base n
  cases radix with
  -- Only in base ten the first digit must not be zero, and it is not for a number that is not.
  | decimal =>
    refine ⟨⟨.decimal, d, decide_eq_true (hd (hn rfl)), ds.map (false, ·), suffix, hsuffix⟩, rfl,
      rfl, ?_⟩
    simpa [number, digits] using hnumber
  | octal =>
    -- The zero in front is a digit more.
    refine ⟨⟨.octal, ⟨0, by decide, false⟩, rfl, (d :: ds).map (false, ·), suffix, hsuffix⟩, rfl,
      rfl, ?_⟩
    rw [number, digits, Digit.number_cons_zero rfl]
    simpa using hnumber
  | hexadecimal capital =>
    refine ⟨⟨.hexadecimal capital, d, rfl, ds.map (false, ·), suffix, hsuffix⟩, rfl, rfl, ?_⟩
    simpa [number, digits] using hnumber
  | binary capital =>
    refine ⟨⟨.binary capital, d, rfl, ds.map (false, ·), suffix, hsuffix⟩, rfl, rfl, ?_⟩
    simpa [number, digits] using hnumber

/-- A literal with all the bits of a word, in both cases of letters and with quotes in between. -/
def allBits : IntegerLiteral where
  radix := .hexadecimal true
  first := ⟨15, by decide, true⟩
  leading := rfl
  more := (List.range 15).map fun i => (i % 4 == 3, ⟨15, by decide, i % 2 == 0⟩)
  suffix := ['u', 'L', 'l']
  suffix_mem := by decide

end IntegerLiteral

/-! ## What literals are worth -/

/-- A literal for a number of 64 bits is worth that number, without a sign if the suffix says so or
the number is beyond the signed range. A literal for a greater number is refused. -/
theorem Constant.integer_decodes (n : Nat) :
    (∀ (radix : Radix) (suffix : List Char), suffix.map Char.toLower ∈ literalSuffixes →
      (radix = .decimal → n ≠ 0) →
      ∃ l : IntegerLiteral, l.radix = radix ∧ l.suffix = suffix ∧ l.number = n) ∧
    ∀ l : IntegerLiteral, l.number = n →
      (n < 2 ^ 64 → ∃ w, integer l.spelling = .ok w ∧ w.toInt = n ∧
        (w.unsigned = true ↔ 'u' ∈ l.suffix.map Char.toLower ∨ 2 ^ 63 - 1 < n)) ∧
      (2 ^ 64 ≤ n → integer l.spelling =
        .error (if l.radix = .decimal ∧ Text.maxDecimalDigits < l.digits.length
          then .notInteger l.spelling else .tooLarge l.spelling)) := by
  refine ⟨fun radix suffix hsuffix hn => IntegerLiteral.exists_number_eq radix hsuffix hn, ?_⟩
  rintro l rfl
  have hvalue := l.integer_spelling
  constructor
  · intro hlt
    -- A number of 64 bits is short enough for base ten.
    have hshort : ¬(l.radix = .decimal ∧ Text.maxDecimalDigits < l.digits.length) :=
      fun h => Nat.not_lt.2 (l.length_digits_le h.1 hlt) h.2
    rw [if_neg hshort, if_neg (Nat.not_le.2 hlt)] at hvalue
    refine ⟨_, hvalue, Word.toInt_ofInt ?_, ?_⟩
    · -- A number that is not beyond the signed range fits either type.
      cases hunsigned : decide ('u' ∈ l.suffix.map Char.toLower) || decide (2 ^ 63 ≤ l.number) with
      | true =>
        rw [Word.inRange_unsigned]
        omega
      | false =>
        have hsmall := of_decide_eq_false (Bool.or_eq_false_iff.1 hunsigned).2
        rw [Word.inRange_signed]
        omega
    · have hbound : 2 ^ 63 ≤ l.number ↔ 2 ^ 63 - 1 < l.number := by omega
      show (decide ('u' ∈ l.suffix.map Char.toLower) || decide (2 ^ 63 ≤ l.number)) = true ↔ _
      rw [Bool.or_eq_true, decide_eq_true_eq, decide_eq_true_eq, hbound]
  · intro hge
    rw [hvalue, if_pos hge]
    split <;> rfl

open IntegerLiteral in
/-- The literal is worth the largest word, which has no sign. -/
theorem Constant.integer_decodes_allBits :
    allBits.spelling = "0XFFfF'fFfF'fFfF'fFfFuLl" ∧ allBits.number < 2 ^ 64 ∧
    ∃ w, integer allBits.spelling = .ok w ∧ w.toInt = 0xFFFFFFFFFFFFFFFF ∧ w.unsigned = true := by
  have hnumber : allBits.number = 0xFFFFFFFFFFFFFFFF := by decide +kernel
  obtain ⟨w, hw, hvalue, hunsigned⟩ :=
    ((Constant.integer_decodes 0xFFFFFFFFFFFFFFFF).2 allBits hnumber).1 (by decide)
  exact ⟨by decide +kernel, by rw [hnumber]; decide, w, hw, hvalue, hunsigned.2 (.inl (by decide))⟩

end Preproc
