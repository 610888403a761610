import Preproc.Proofs.Lexing.Splices
import Preproc.Text.Blank

/-!
# Phrases

A phrase is a list of tokens written out with a space before each. No spelling sticks to a space or
to the end of the text, so the tokens of a phrase are read back one by one. None ends in a blank, so
nothing is lost of a phrase when the blanks at the end of a text are dropped; and none ends in a
backslash or holds a newline, so a phrase is its own logical text.

## Key results

- `readings_phrase`: the tokens of a phrase are read back
- `Spelled.getLast?_isBlank`: no spelling ends in a blank
- `EndsFirmly.dropTrailingBlanks`, `EndsFirmly.logicalText`: what does not change a text
-/

namespace Preproc

/-! ## Blanks -/

/-- Ranges without a common code point hold no common character. -/
private theorem Text.not_inRanges_of_disjoint {ranges others : List (Nat × Nat)}
    (h : (ranges.all fun r => others.all fun s => decide (r.2 < s.1 ∨ s.2 < r.1)) = true) {c : Char}
    (hc : Text.inRanges ranges c = true) : Text.inRanges others c = false := by
  rw [Bool.eq_false_iff]
  intro hother
  obtain ⟨r, hr, hlo, hhi⟩ := Text.inRanges_iff.1 hc
  obtain ⟨s, hs, hlo', hhi'⟩ := Text.inRanges_iff.1 hother
  have hdisjoint := of_decide_eq_true (List.all_eq_true.1 (List.all_eq_true.1 h r hr) s hs)
  omega

/-- Plain letters and digits are no blanks. -/
private theorem not_isBlank_of_isAlphanum {c : Char} (h : c.isAlphanum = true) :
    Text.isBlank c = false := by
  -- All of them lie between the zero and the small `z`.
  have hrange : Text.inRanges [(0x30, 0x7A)] c = true := by
    delta Char.isAlphanum Char.isAlpha Char.isUpper Char.isLower Char.isDigit at h
    simp only [Bool.or_eq_true, Bool.and_eq_true, decide_eq_true_eq, UInt32.le_iff_toNat_le,
      ge_iff_le] at h
    change ((65 ≤ c.toNat ∧ c.toNat ≤ 90) ∨ (97 ≤ c.toNat ∧ c.toNat ≤ 122)) ∨
      (48 ≤ c.toNat ∧ c.toNat ≤ 57) at h
    rw [Text.inRanges_iff]
    refine ⟨_, List.mem_singleton_self _, ?_⟩
    omega
  exact Text.not_inRanges_of_disjoint (by decide) hrange

/-- Letters and digits are no blanks. -/
private theorem not_isBlank_of_isAlphanumeric {c : Char} (h : Text.isAlphanumeric c = true) :
    Text.isBlank c = false := by
  simp only [Text.isAlphanumeric, Bool.or_eq_true, Bool.and_eq_true] at h
  rcases h with hascii | ⟨-, hrange⟩
  · exact not_isBlank_of_isAlphanum hascii
  · exact Text.not_inRanges_of_disjoint (by decide +kernel) hrange

/-- Digits are no blanks. -/
private theorem not_isBlank_of_isDigit {c : Char} (h : Text.isDigit c = true) :
    Text.isBlank c = false := by
  simp only [Text.isDigit, Bool.or_eq_true, Bool.and_eq_true] at h
  rcases h with hascii | ⟨-, hrange | hrange⟩
  · exact not_isBlank_of_isAlphanum (by simp [Char.isAlphanum, hascii])
  · exact Text.not_inRanges_of_disjoint (by decide +kernel) hrange
  · exact Text.not_inRanges_of_disjoint (by decide +kernel) hrange

/-- No blank stands in a name. -/
private theorem not_isBlank_of_isNameChar {c : Char} (h : isNameChar c = true) :
    Text.isBlank c = false := by
  simp only [isNameChar, Bool.or_eq_true, decide_eq_true_eq] at h
  rcases h with hletter | rfl
  · exact not_isBlank_of_isAlphanumeric hletter
  · decide

/-- No blank stands in a number, signs apart. -/
private theorem not_isBlank_of_isNumberChar {c : Char} (h : isNumberChar c = true) :
    Text.isBlank c = false := by
  simp only [isNumberChar, Bool.or_eq_true, decide_eq_true_eq] at h
  rcases h with (hletter | rfl) | rfl
  · exact not_isBlank_of_isAlphanumeric hletter
  · decide
  · decide

/-- No blank stands in a number. -/
private theorem not_isBlank_of_number {d : Char} {cs : List Char} (hd : Text.isDigit d = true)
    (htail : numberTail cs = cs.length) : ∀ c ∈ d :: cs, Text.isBlank c = false := by
  have hsigns : ['+', '-', '\''].any Text.isBlank = false := by decide
  refine List.forall_mem_cons.2 ⟨not_isBlank_of_isDigit hd, fun c hc => ?_⟩
  rcases numberTail_chars htail c hc with hchar | hsign
  · exact not_isBlank_of_isNumberChar hchar
  · simpa using List.any_eq_false.1 hsigns c hsign

/-- No spelling ends in a blank. -/
theorem Spelled.getLast?_isBlank {k : Kind} {cs : List Char} (h : Spelled k cs) :
    cs.getLast?.any Text.isBlank = false := by
  -- For most kinds no character at all is a blank.
  have hsolid : ∀ {cs : List Char}, (∀ c ∈ cs, Text.isBlank c = false) →
      cs.getLast?.any Text.isBlank = false := by
    intro cs hcs
    cases hlast : cs.getLast? with
    | none => rfl
    | some c => exact hcs c (List.mem_of_getLast? hlast)
  cases h with
  | name kind solid digit chars => exact hsolid fun c hc => not_isBlank_of_isNameChar (chars c hc)
  | number digit tail => exact hsolid (not_isBlank_of_number digit tail)
  | fraction digit tail =>
    exact hsolid (List.forall_mem_cons.2 ⟨by decide, not_isBlank_of_number digit tail⟩)
  | literal kind known quotes closed =>
    -- It ends in its quote.
    rename_i e quote body
    have hquote : quote ≠ '\n' ∧ Text.isBlank quote = false := by
      rcases List.mem_pair.1 quotes with rfl | rfl <;> decide
    obtain ⟨-, hlast⟩ := closingQuote?_chars hquote.1 closed
    simp [List.getLast?_append, List.getLast?_cons, hlast, hquote.2]
  | punctuator known =>
    have hall : ∀ p ∈ punctuatorTexts, p.getLast?.any Text.isBlank = false := by decide
    exact hall _ known

/-! ## The end of a text -/

/-- The text does not end in a blank or a backslash. -/
def EndsFirmly (cs : List Char) : Prop :=
  cs.getLast?.any (fun c => Text.isBlank c || c = '\\') = false

/-- Texts that end firmly do so together. -/
theorem EndsFirmly.append {cs ds : List Char} (hcs : EndsFirmly cs) (hds : EndsFirmly ds) :
    EndsFirmly (cs ++ ds) := by
  rw [EndsFirmly, List.getLast?_append]
  cases hlast : ds.getLast? with
  | none => exact hcs
  | some c =>
    rw [EndsFirmly, hlast] at hds
    exact hds

/-- Spellings end firmly. -/
theorem Spelled.endsFirmly {k : Kind} {cs : List Char} (h : Spelled k cs) : EndsFirmly cs := by
  have hblank := h.getLast?_isBlank
  have hslash := h.smooth.2
  cases hlast : cs.getLast? with
  | none => simp [EndsFirmly, hlast]
  | some c => simp_all [EndsFirmly]

/-- Without blanks at its end a text stays as it is. -/
theorem EndsFirmly.dropTrailingBlanks {cs : List Char} (h : EndsFirmly cs) :
    Text.dropTrailingBlanks cs = cs := by
  rw [EndsFirmly, ← List.head?_reverse] at h
  rw [Text.dropTrailingBlanks]
  cases hreverse : cs.reverse with
  | nil => simpa using hreverse
  | cons c rest =>
    rw [hreverse, List.head?_cons, Option.any_some, Bool.or_eq_false_iff] at h
    rw [List.dropWhile_cons_of_neg (by simp [h.1]), ← hreverse, List.reverse_reverse]

/-- A space at the end is dropped. -/
theorem dropTrailingBlanks_space (cs : List Char) :
    Text.dropTrailingBlanks (cs ++ [' ']) = Text.dropTrailingBlanks cs := by
  rw [Text.dropTrailingBlanks, List.reverse_concat, List.dropWhile_cons_of_pos (by decide)]
  rfl

/-- A text on one line without a backslash at its end is its own logical text. -/
theorem EndsFirmly.logicalText {cs : List Char} (h : EndsFirmly cs) (hreturn : '\r' ∉ cs)
    (hnewline : '\n' ∉ cs) : logicalText cs = cs := by
  apply logicalText_of_line hreturn hnewline
  intro hlast
  rw [EndsFirmly, hlast] at h
  revert h
  decide

/-! ## Tokens side by side -/

/-- The tokens written out, with a space before each. -/
def phrase (ts : List Token) : List Char :=
  ts.flatMap fun t => ' ' :: t.value.toList

theorem phrase_cons (t : Token) (ts : List Token) :
    phrase (t :: ts) = (' ' :: t.value.toList) ++ phrase ts :=
  List.flatMap_cons

/-- The characters of a phrase are spaces and those of its tokens. -/
theorem mem_phrase {ts : List Token} {c : Char} (h : c ∈ phrase ts) :
    c = ' ' ∨ ∃ t ∈ ts, c ∈ t.value.toList := by
  obtain ⟨t, ht, hc⟩ := List.mem_flatMap.1 h
  rcases List.mem_cons.1 hc with rfl | hmem
  · exact .inl rfl
  · exact .inr ⟨t, ht, hmem⟩

/-- A phrase of spellings ends firmly. -/
theorem endsFirmly_phrase {ts : List Token} (h : ∀ t ∈ ts, Spelled t.kind t.value.toList) :
    EndsFirmly (phrase ts) := by
  induction ts with
  | nil => rfl
  | cons t ts ih =>
    obtain ⟨ht, hts⟩ := List.forall_mem_cons.1 h
    rw [phrase_cons]
    -- The value is not empty, so the space before it is not at the end.
    apply EndsFirmly.append _ (ih hts)
    obtain ⟨c, rest, hvalue, -⟩ := ht.head
    have hfirm := ht.endsFirmly
    rw [hvalue] at hfirm ⊢
    rwa [EndsFirmly, List.getLast?_cons_cons]

/-- The tokens of a phrase are read back. -/
theorem readings_phrase {ts : List Token} (h : ∀ t ∈ ts, Spelled t.kind t.value.toList)
    (white : Bool) :
    ∃ white', readings white false (phrase ts) =
      ts.map (fun t => reading t.kind t.value.toList true false) ++
        [reading .eof [] white' false] := by
  induction ts generalizing white with
  | nil => exact ⟨white, readings_nil white false⟩
  | cons t ts ih =>
    obtain ⟨white', hread⟩ := ih (fun u hu => h u (List.mem_cons_of_mem t hu)) false
    refine ⟨white', ?_⟩
    -- Behind the token stands a space, or nothing.
    have hloose : sticks t.kind t.value.toList (phrase ts) = false := by
      cases ts with
      | nil => exact not_sticks_nil (h t List.mem_cons_self)
      | cons u ts => exact not_sticks_space (h t List.mem_cons_self) _
    rw [phrase_cons, List.cons_append, readings_space,
      readings_spelled (h t List.mem_cons_self) hloose, hread]
    rfl

end Preproc
