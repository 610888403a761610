import Preproc.Proofs.Expression.Completeness
import Preproc.Proofs.Samples

/-!
# The truth of conditions

A condition has a truth value exactly if its tokens spell an expression that is worth something.

## Key results

- `Constant.of_codeOverflow`: only a single code that is too large makes a constant overflow
- `truthWithin_iff`: the conditions that have a truth value, and which
-/

namespace Preproc

/-! ## Codes of characters -/

namespace Constant

/-- The text between the quotes of a character constant. -/
def quoted (spelling : String) : List Char :=
  ((spelling.toList.dropWhile (· ≠ '\'')).drop 1).dropLast

/-- Reading an escape does not look at the size of its code. -/
private theorem readEscape_ne_codeOverflow (cs : List Char) :
    readEscape cs ≠ .error .codeOverflow := by
  unfold readEscape
  split
  · simp
  · split
    · simp
    · split
      · simp only
        split <;> simp
      · split <;> simp

/-- Reading the codes does not look at their size. -/
private theorem characterCodes_ne_codeOverflow (cs : List Char) :
    characterCodes cs ≠ .error .codeOverflow := by
  fun_induction characterCodes cs with
  | case1 => simp
  | case2 rest ih =>
    -- An error comes from the escape or from what follows, and neither is too large a code.
    cases hescape : readEscape rest with
    | error e =>
      intro h
      simp only [bind, Except.bind, Except.error.injEq] at h
      exact readEscape_ne_codeOverflow rest (h ▸ hescape)
    | ok r =>
      intro h
      cases hcodes : characterCodes (rest.drop r.2) with
      | error e =>
        simp only [bind, Except.bind, hcodes, Except.error.injEq] at h
        exact ih r.2 (h ▸ hcodes)
      | ok codes => simp [bind, Except.bind, hcodes, pure, Except.pure] at h
  | case3 c rest _ ih =>
    intro h
    cases hcodes : characterCodes rest with
    | error e =>
      simp only [bind, Except.bind, hcodes, Except.error.injEq] at h
      exact ih (h ▸ hcodes)
    | ok codes => simp [bind, Except.bind, hcodes, pure, Except.pure] at h

/-- A single code overflows only if it is too large for a word. -/
private theorem of_singleCode_codeOverflow {plain : Bool} {code : Nat}
    (h : singleCode plain code = .error .codeOverflow) : Word.signedBound ≤ code := by
  unfold singleCode at h
  simp only at h
  -- A high code of a plain character stands for a negative number, which is not too large.
  split at h
  · split at h
    · omega
    · simp at h
  · split at h
    · assumption
    · simp at h

/-- Only a single code that is too large makes a character constant overflow. -/
theorem of_codeOverflow {spelling : String} (h : character spelling = .error .codeOverflow) :
    ∃ code, characterCodes (quoted spelling) = .ok [code] ∧ Word.signedBound ≤ code := by
  -- What stands before the first quote is left out in both ways.
  have hdrop : spelling.toList.drop (spelling.toList.takeWhile (· ≠ '\'')).length =
      spelling.toList.dropWhile (· ≠ '\'') := by
    generalize spelling.toList = cs
    calc cs.drop (cs.takeWhile (· ≠ '\'')).length
        = (cs.takeWhile (· ≠ '\'') ++ cs.dropWhile (· ≠ '\'')).drop
            (cs.takeWhile (· ≠ '\'')).length := by rw [List.takeWhile_append_dropWhile]
      _ = cs.dropWhile (· ≠ '\'') := List.drop_left
  unfold character at h
  simp only [hdrop] at h
  split at h
  · simp at h
  · rename_i q rest hrest
    have hquoted : quoted spelling = rest.dropLast := by
      rw [quoted, hrest]
      rfl
    rw [hquoted]
    split at h
    · simp at h
    · cases hcodes : characterCodes rest.dropLast with
      | error e =>
        simp only [hcodes, bind, Except.bind, Except.error.injEq] at h
        exact absurd (h ▸ hcodes) (characterCodes_ne_codeOverflow _)
      -- Only a single code is checked.
      | ok codes =>
        simp only [hcodes, bind, Except.bind] at h
        split at h
        · rename_i code
          exact ⟨code, rfl, of_singleCode_codeOverflow h⟩
        · simp [pure, Except.pure] at h

end Constant

/-- The codes of a character constant fit a word. -/
def Token.CodesFit (t : Token) : Prop :=
  t.kind = .character → ∀ codes, Constant.characterCodes (Constant.quoted t.value) = .ok codes →
    ∀ code ∈ codes, (code : Int) < Word.signedBound

namespace Expression

variable {limit : Nat} {ts : List Token}

/-- A condition with a truth value is an expression. -/
theorem spells_of_truthWithin {b : Bool} (h : truthWithin limit ts = .ok b) :
    ∃ e w, Spells 0 e ts ∧ e.eval false = .ok w ∧ b = w.isTrue := by
  unfold truthWithin at h
  split at h
  · rename_i w hvalue
    simp only [Except.ok.injEq] at h
    obtain ⟨⟨e, pre, rfl, hspells, heval⟩, -⟩ := (sound_eval limit).reads hvalue
    rw [List.append_nil]
    exact ⟨e, w, hspells, heval, h.symm⟩
  all_goals simp at h

/-- An expression that is worth something has a truth value. -/
theorem truthWithin_of_spells (hdeep : truthWithin limit ts ≠ .error .tooDeep) {e : Expr} {w : Word}
    (hspells : Spells 0 e ts) (heval : e.eval false = .ok w) :
    truthWithin limit ts = .ok w.isTrue := by
  have hagrees := (complete_eval limit).agrees hspells false (Ends.nil 0)
  rw [List.append_nil, heval] at hagrees
  unfold truthWithin start at hdeep ⊢
  generalize eval limit false 0 ts = result at hagrees hdeep ⊢
  cases hagrees with
  | tooDeep _ rest => exact absurd rfl hdeep
  | value => rfl

/-- A condition without a value is not evaluated, has too large a code, or is nested too deeply. -/
theorem explained_of_truthWithin {f : Failure} (h : truthWithin limit ts = .error f) :
    f = .notEvaluated ∨ (f = .codeOverflow ∧ Explained limit ts .codeOverflow) ∨
      (f = .tooDeep ∧ limit ≤ ts.length) := by
  -- Each fault is turned into one failure.
  unfold truthWithin at h
  split at h
  · simp at h
  · simp only [Except.error.injEq] at h
    exact .inl h.symm
  · rename_i rest hfault
    simp only [Except.error.injEq] at h
    exact .inr (.inl ⟨h.symm, (sound_eval limit).explained hfault⟩)
  · rename_i rest hfault
    simp only [Except.error.injEq] at h
    have hlength : Explained limit ts .tooDeep := (sound_eval limit).explained hfault
    exact .inr (.inr ⟨h.symm, hlength⟩)
  · simp only [Except.error.injEq] at h
    exact .inl h.symm

/-- Where all codes fit, none is too large. -/
private theorem not_explained_codeOverflow (hts : ∀ t ∈ ts, t.CodesFit) :
    ¬Explained limit ts .codeOverflow := by
  rintro ⟨t, ht, hkind, hoverflow⟩
  obtain ⟨code, hcodes, hbound⟩ := Constant.of_codeOverflow hoverflow
  have hfit := hts t ht hkind [code] hcodes code (by simp)
  omega

/-- Let the codes of all characters fit a word. A condition with fewer tokens than levels is not
nested too deeply. One that is not has a truth value exactly if it spells an expression that is
worth something, and the value is whether that is not zero; any other is not evaluated. -/
theorem truthWithin_iff (limit : Nat) (ts : List Token) (hts : ∀ t ∈ ts, t.CodesFit) :
    (ts.length < limit → truthWithin limit ts ≠ .error .tooDeep) ∧
    (truthWithin limit ts ≠ .error .tooDeep →
      (∀ b, truthWithin limit ts = .ok b ↔
        ∃ e w, Spells 0 e ts ∧ e.eval false = .ok w ∧ b = w.isTrue) ∧
      ((¬∃ e w, Spells 0 e ts ∧ e.eval false = .ok w) →
        truthWithin limit ts = .error .notEvaluated)) := by
  refine ⟨?_, fun hdeep => ⟨fun b => ⟨spells_of_truthWithin, ?_⟩, ?_⟩⟩
  · -- Each level reads a token.
    intro hlength hdeep
    rcases explained_of_truthWithin hdeep with h | h | h
    · simp at h
    · simp at h
    · omega
  · rintro ⟨e, w, hspells, heval, rfl⟩
    exact truthWithin_of_spells hdeep hspells heval
  · intro hnone
    cases htruth : truthWithin limit ts with
    | ok b =>
      obtain ⟨e, w, hspells, heval, -⟩ := spells_of_truthWithin htruth
      exact absurd ⟨e, w, hspells, heval⟩ hnone
    | error f =>
      rcases explained_of_truthWithin htruth with rfl | ⟨-, hoverflow⟩ | ⟨rfl, -⟩
      · rfl
      · exact absurd hoverflow (not_explained_codeOverflow hts)
      · exact absurd htruth hdeep

namespace Guarded

open Token

/-- The tokens of `f(5) + 2`. -/
def middle : List Token :=
  [word "f", sign "(", sample .number "5", sign ")", sign "+", sample .number "2"]

/-- The tokens of `1 / 0`. -/
def division : List Token :=
  [sample .number "1", sign "/", sample .number "0"]

/-- The tokens of `'a' ? f(5) + 2 : 1 / 0`. -/
def tokens : List Token :=
  [sample .character "'a'"] ++ sign "?" :: (middle ++ sign ":" :: division)

/-- The character has one code. -/
theorem codes : Constant.characterCodes (Constant.quoted "'a'") = .ok [97] := by
  show Constant.characterCodes ['a'] = .ok [97]
  rw [Constant.characterCodes, if_neg (by decide), Constant.characterCodes]
  rfl

/-- The code of the only character fits a word. -/
private theorem codesFit : ∀ t ∈ tokens, t.CodesFit := by
  have hvalue : ∀ t ∈ tokens, t.kind = .character → t.value = "'a'" := by decide
  intro t ht hkind codes h code hcode
  rw [hvalue t ht hkind, Guarded.codes, Except.ok.injEq] at h
  simp only [← h, List.mem_singleton] at hcode
  rw [hcode]
  decide

/-- The expression that these tokens spell. -/
def tree : Expr :=
  .conditional (.constant (.ofInt 97))
    (.binary (.arithmetic .add) (.call "f" [.constant (.ofInt 5)]) (.constant (.ofInt 2)))
    (.binary (.arithmetic .divide) (.constant (.ofInt 1)) (.constant (.ofInt 0)))

/-- The tokens spell this expression. -/
theorem spells : Spells 0 tree tokens := by
  have hcondition : Spells 2 (.constant (.ofInt 97)) [sample .character "'a'"] := by
    refine .character rfl ?_
    change (Constant.characterCodes (Constant.quoted "'a'") >>= _) = _
    rw [codes]
    rfl
  have hfive : Spells 0 (.constant (.ofInt 5)) [sample .number "5"] := .integer rfl rfl
  have htwo : Spells 11 (.constant (.ofInt 2)) [sample .number "2"] := .integer rfl rfl
  have hone : Spells 11 (.constant (.ofInt 1)) [sample .number "1"] := .integer rfl rfl
  have hzero : Spells 12 (.constant (.ofInt 0)) [sample .number "0"] := .integer rfl rfl
  -- The parts of the tree, from the leaves up.
  have hcall := @Spells.callMore 10 (word "f") (sign "(")
    (sign ")") _ _ _ _ rfl rfl rfl hfive .nil
  have hmiddle := @Spells.binary 0 (sign "+") (.arithmetic .add) _ _ _ _
    (by decide) rfl hcall htwo
  have hdivision := @Spells.binary 1 (sign "/") (.arithmetic .divide) _ _ _ _
    (by decide) rfl hone hzero
  exact @Spells.conditional 0 (sign "?") (sign ":") _ _ _ _ _ _
    (by decide) rfl rfl hcondition hmiddle hdivision

end Guarded

open Guarded in
/-- The division by zero is read, but it is not evaluated. -/
theorem truthWithin_iff_guarded :
    (∀ t ∈ tokens, t.CodesFit) ∧ truthWithin 13 tokens = .ok true := by
  obtain ⟨hshallow, hiff⟩ := truthWithin_iff 13 tokens codesFit
  have htruth := (hiff (hshallow (by decide))).1 true
  exact ⟨codesFit, htruth.2 ⟨tree, .ofInt 2, spells, rfl, rfl⟩⟩

end Expression

end Preproc
