import Preproc.Proofs.Expression.Truth
import Preproc.Proofs.Preprocessor.Runs

/-!
# Conditions that cannot be evaluated

A condition that cannot be evaluated counts as true: one that is no expression, that divides by
zero, or that is nested too deeply. There is one exception. The code of a character constant is made
a word without a look at its size, so a constant with a single code that is too large has no value,
and this is no fault of form that another reading could mend: it ends the run.

## Key results

- `of_holds_error`: no other condition fails
- `holds_false_iff`: a condition is false only if it is an expression that is worth zero
- `Context.test_of_expand`: a directive takes the truth value of its expanded condition
- `holds_failsOpen`: without such characters every condition is true or false
-/

namespace Preproc

/-- A character constant with a single code that does not fit a word. -/
def Token.CodeOverflows (t : Token) : Prop :=
  t.kind = .character ∧ ∃ code, Constant.characterCodes (Constant.quoted t.value) = .ok [code] ∧
    Word.signedBound ≤ (code : Int)

/-- A condition fails only if one of its characters has too large a code. -/
theorem of_holds_error {limit : Nat} {ts : List Token} {e : Expression.Failure}
    (h : (holds limit ts).value = .error e) : e = .codeOverflow ∧ ∃ t ∈ ts, t.CodeOverflows := by
  unfold holds at h
  split at h
  · cases h
  · -- Of all failures only this one is passed on.
    rename_i htruth
    cases h
    rcases Expression.explained_of_truthWithin htruth with h | ⟨-, t, ht, hkind, hvalue⟩ | ⟨h, -⟩
    · cases h
    · exact ⟨rfl, t, ht, hkind, Constant.of_codeOverflow hvalue⟩
    · cases h
  · cases h

/-- A condition is false exactly if it is an expression that is worth zero, and not nested too
deeply to be evaluated. -/
theorem holds_false_iff (limit : Nat) (ts : List Token) :
    (holds limit ts).value = .ok false ↔
      Expression.truthWithin limit ts ≠ .error .tooDeep ∧
        ∃ e w, Spells 0 e ts ∧ e.eval false = .ok w ∧ w.isTrue = false := by
  -- A failure makes a condition true or is passed on, so a false one is an expression's value.
  have htruth : (holds limit ts).value = .ok false ↔
      Expression.truthWithin limit ts = .ok false := by
    unfold holds
    split
    · rename_i b hb
      simp [hb]
    · rename_i hoverflow
      simp [hoverflow]
    · rename_i hother
      simp [hother]
  rw [htruth]
  constructor
  · intro h
    obtain ⟨e, w, hspells, heval, hw⟩ := Expression.spells_of_truthWithin h
    exact ⟨by simp [h], e, w, hspells, heval, hw.symm⟩
  · rintro ⟨hdeep, e, w, hspells, heval, hw⟩
    rw [← hw]
    exact Expression.truthWithin_of_spells hdeep hspells heval

namespace Context

/-- What is left of a condition in `file` once its questions are answered, and what is known
then. -/
def answered (env : Environment) (file : String) (condition : List Token) (c : Context) :
    List Token × Context :=
  let clauses := splitQueries condition
  answerQueries (answer env file) (c.noting clauses.notes) clauses.value

/-- A condition that expands to tokens with a truth value has that truth value. -/
theorem test_of_expand {env : Environment} {file : String} {condition ts : List Token}
    {c c₁ : Context} {b : Bool}
    (hexpand : expand env true (answered env file condition c).1 (answered env file condition c).2 =
      .ok ts c₁) (hholds : (holds env.nesting ts).value = .ok b) :
    ∃ c₂, test env file condition c = .ok b c₂ := by
  unfold answered at hexpand
  rw [test, ContextM.bind_of_ok (keep_apply _ c), ContextM.get_bind]
  -- How the questions were answered does not matter here.
  generalize answerQueries (answer env file) (c.noting (splitQueries condition).notes)
    (splitQueries condition).value = left at hexpand ⊢
  refine ⟨c₁.noting (holds env.nesting ts).notes, ?_⟩
  dsimp only
  rw [ContextM.set_bind, ContextM.bind_of_ok hexpand, ContextM.bind_of_ok (keep_apply _ c₁), hholds]
  rfl

end Context

/-- Without a character whose single code is too large for a word, a condition is true or false, and
false only if it is an expression that is worth zero; so it is true whenever it cannot be evaluated.
A directive whose condition expands to such tokens takes this truth value, and the run goes on. All
of this holds however deeply the host lets expressions be nested. -/
theorem holds_failsOpen (limit : Nat) (ts : List Token) (hts : ∀ t ∈ ts, ¬t.CodeOverflows) :
    ∃ b, (holds limit ts).value = .ok b ∧
      (b = false ↔ Expression.truthWithin limit ts ≠ .error .tooDeep ∧
        ∃ e w, Spells 0 e ts ∧ e.eval false = .ok w ∧ w.isTrue = false) ∧
      ∀ (env : Environment) (file : String) (condition : List Token) (c c₁ : Context),
        env.nesting = limit →
        Context.expand env true (Context.answered env file condition c).1
          (Context.answered env file condition c).2 = .ok ts c₁ →
        ∃ c₂, Context.test env file condition c = .ok b c₂ := by
  cases hholds : (holds limit ts).value with
  | ok b =>
    have hfalse : b = false ↔ (holds limit ts).value = .ok false := by
      rw [hholds]
      simp
    rw [holds_false_iff] at hfalse
    refine ⟨b, rfl, hfalse, ?_⟩
    rintro env file condition c c₁ rfl hexpand
    exact Context.test_of_expand hexpand hholds
  | error e =>
    -- A failure would need a character that was ruled out.
    obtain ⟨-, t, ht, hoverflows⟩ := of_holds_error hholds
    exact absurd hoverflows (hts t ht)

/-! ## A code that is too large -/

namespace TooLarge

/-- The tokens of a condition that is no expression. -/
def unfinished : List Token :=
  tokensOf "'a' +"

/-- A character constant whose code is one more than the largest word. -/
def constant : String := "'\\x8000000000000000'"

/-- The tokens of a condition that is this constant. -/
def tokens : List Token :=
  tokensOf constant

end TooLarge

open TooLarge in
/-- The condition is neither true nor false, and a run that comes to it fails. -/
theorem not_holds_tooLarge :
    (¬∃ b, (holds defaultNesting tokens).value = .ok b) ∧
      (Preprocessor.bare.runText "t.c" ("#if " ++ constant).toList).failure =
        some .codeOverflow := by
  have hholds : (holds defaultNesting tokens).value.toOption = none := by
    decide +kernel
  -- The same in a run, which ends there.
  have hruns : (Preprocessor.bare.runTextWithin 4 "t.c" ("#if " ++ constant).toList).any
      (·.failure = some .codeOverflow) = true := by
    decide +kernel
  constructor
  · rintro ⟨b, hb⟩
    rw [hb] at hholds
    cases hholds
  · obtain ⟨f, hf, hfailure⟩ := (Option.any_eq_true _ _).1 hruns
    rw [Preprocessor.runText_of_runTextWithin hf]
    exact of_decide_eq_true hfailure

open TooLarge Preprocessor in
/-- A condition that is no expression is true, and so is a directive that tests it. -/
theorem holds_failsOpen_unfinished :
    (∀ t ∈ unfinished, ¬t.CodeOverflows) ∧ (holds defaultNesting unfinished).value = .ok true ∧
      ¬(Expression.truthWithin defaultNesting unfinished ≠ .error .tooDeep ∧
        ∃ e w, Spells 0 e unfinished ∧ e.eval false = .ok w ∧ w.isTrue = false) ∧
      ∃ c, Context.test bare.env "t.c" unfinished bare.context = .ok true c := by
  have hsmall : ∀ t ∈ unfinished, ¬t.CodeOverflows := by
    rintro t ht ⟨hkind, code, hcodes, hlarge⟩
    -- The only character among the tokens is a small one.
    have hvalue : ∀ t ∈ unfinished, t.kind = .character →
        (Constant.characterCodes (Constant.quoted t.value)).toOption = some [97] := by
      decide +kernel
    have hcode := hvalue t ht hkind
    rw [hcodes] at hcode
    cases hcode
    revert hlarge
    decide
  obtain ⟨b, hb, hfalse, htest⟩ := holds_failsOpen defaultNesting unfinished hsmall
  have htrue : (holds defaultNesting unfinished).value.toOption = some true := by
    decide +kernel
  rw [hb] at htrue
  cases htrue
  -- Nothing in the condition is expanded.
  have hexpands : (Context.expand bare.env true
      (Context.answered bare.env "t.c" unfinished bare.context).1).run'
      (Context.answered bare.env "t.c" unfinished bare.context).2 = some unfinished := by
    decide +kernel
  refine ⟨hsmall, hb, fun h => (nomatch hfalse.2 h), ?_⟩
  cases hexpand : Context.expand bare.env true
      (Context.answered bare.env "t.c" unfinished bare.context).1
      (Context.answered bare.env "t.c" unfinished bare.context).2 with
  | ok ts c₁ =>
    delta EStateM.run' EStateM.run at hexpands
    rw [hexpand] at hexpands
    cases hexpands
    exact htest bare.env "t.c" unfinished bare.context c₁ rfl hexpand
  | error e c₁ =>
    delta EStateM.run' EStateM.run at hexpands
    rw [hexpand] at hexpands
    cases hexpands

end Preproc
