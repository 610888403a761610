import Preproc.Proofs.Expansion.Notes
import Preproc.Proofs.Preprocessor.Effects

/-!
# Notes do not matter to a run

Whatever a run does makes notes, but nothing that it does looks at them. So two runs that differ in
their notes differ in nothing else later: each computation gives the same, and leaves the same but
for the notes (`ContextM.Unheeding`).

## Key results

- `Unheeding.bind`: two computations that do not heed notes do not heed them together
- `unheeding_directive`, `unheeding_expand`, `unheeding_including`, `unheeding_closeGroups`: a run
  is put together from these
-/

namespace Preproc

/-- What is known without the notes. -/
def Context.silent (c : Context) : Context :=
  { c with notes := #[] }

/-- What is the same but for notes differs in them at most. -/
theorem Context.exists_notes {c c' : Context} (h : c'.silent = c.silent) :
    ∃ notes, c' = { c with notes := notes } := by
  obtain ⟨macros, headers, conditionals, diagnostics, once, notes⟩ := c
  obtain ⟨macros', headers', conditionals', diagnostics', once', notes'⟩ := c'
  simp only [silent, Context.mk.injEq, and_true] at h
  obtain ⟨rfl, rfl, rfl, rfl, rfl⟩ := h
  exact ⟨notes', rfl⟩

/-- The open groups are the same. -/
theorem Context.conditionals_of_silent {c c' : Context} (h : c'.silent = c.silent) :
    c'.conditionals = c.conditionals := by
  obtain ⟨notes, rfl⟩ := exists_notes h
  rfl

theorem Context.depth_of_silent {c c' : Context} (h : c'.silent = c.silent) :
    c'.conditionals.depth = c.conditionals.depth := by
  rw [conditionals_of_silent h]

namespace ContextM

variable {α β : Type}

/-- A result, and what is then known without the notes. -/
def silence : EStateM.Result Failure Context α → EStateM.Result Failure Context α
  | .ok a c => .ok a c.silent
  | .error e c => .error e c.silent

/-- The computation gives and leaves the same, whatever has been noted before it. -/
def Unheeding (x : ContextM α) : Prop :=
  ∀ ⦃c c' : Context⦄, c'.silent = c.silent → silence (x c') = silence (x c)

/-- It is enough to look at other notes. -/
private theorem unheeding_of_notes {x : ContextM α}
    (h : ∀ (c : Context) notes, silence (x { c with notes := notes }) = silence (x c)) :
    Unheeding x := by
  intro c c' hc
  obtain ⟨notes, rfl⟩ := Context.exists_notes hc
  exact h c notes

/-- Two results that are the same but for notes are both successes or both failures. -/
theorem cases_of_silence {r r' : EStateM.Result Failure Context α} (h : silence r' = silence r) :
    (∃ a c c', r = .ok a c ∧ r' = .ok a c' ∧ c'.silent = c.silent) ∨
      ∃ e c c', r = .error e c ∧ r' = .error e c' ∧ c'.silent = c.silent := by
  cases r with
  -- Being silent keeps apart what succeeds and what fails.
  | ok a c =>
    cases r' with
    | ok a' c' =>
      simp only [silence, EStateM.Result.ok.injEq] at h
      obtain ⟨rfl, hleft⟩ := h
      exact .inl ⟨a', c, c', rfl, rfl, hleft⟩
    | error e c' => cases h
  | error e c =>
    cases r' with
    | ok a c' => cases h
    | error e' c' =>
      simp only [silence, EStateM.Result.error.injEq] at h
      obtain ⟨rfl, hleft⟩ := h
      exact .inr ⟨e', c, c', rfl, rfl, hleft⟩

/-- Two computations that do not heed notes do not heed them together. -/
theorem Unheeding.bind {x : ContextM α} {f : α → ContextM β} (hx : Unheeding x)
    (hf : ∀ a, Unheeding (f a)) : Unheeding (x >>= f) := by
  intro c c' hc
  cases cases_of_silence (hx hc) with
  -- Both have succeeded with the same, and what follows starts from the same but for notes.
  | inl hok =>
    obtain ⟨a, c₁, c₁', h, h', hleft⟩ := hok
    rw [bind_of_ok h, bind_of_ok h']
    exact hf a hleft
  | inr herror =>
    obtain ⟨e, c₁, c₁', h, h', hleft⟩ := herror
    rw [bind_of_error h, bind_of_error h']
    simp only [silence, hleft]

theorem unheeding_pure (a : α) : Unheeding (pure a) :=
  unheeding_of_notes fun _ _ => rfl

theorem unheeding_throw (e : Failure) : Unheeding (throw e : ContextM α) :=
  unheeding_of_notes fun _ _ => rfl

private theorem composes_unheeding : Context.Composes fun _ act => Unheeding act :=
  ⟨unheeding_pure, unheeding_throw, Unheeding.bind⟩

/-- Looking at what is known, but not at the notes. -/
theorem unheeding_get_bind {g : Context → ContextM β} (hg : ∀ c, Unheeding (g c))
    (hsame : ∀ c notes, g { c with notes := notes } = g c) : Unheeding (get >>= g) := by
  apply unheeding_of_notes
  intro c notes
  -- What is done next is chosen without the notes.
  rw [get_bind, get_bind, hsame]
  exact hg c rfl

/-- Changing what is known without a look at the notes. -/
private theorem unheeding_modify {f : Context → Context}
    (hf : ∀ c notes, (f { c with notes := notes }).silent = (f c).silent) :
    Unheeding (modify f) := by
  apply unheeding_of_notes
  intro c notes
  show EStateM.Result.ok PUnit.unit (f { c with notes := notes }).silent = .ok .unit (f c).silent
  rw [hf]

/-- A condition that is tested only if it matters does not heed notes if it does not when tested. -/
theorem Unheeding.ite {x : ContextM Bool} (h : Unheeding x) (tested : Bool) :
    Unheeding (if tested then x else pure false) := by
  cases tested with
  | true => exact h
  | false => exact unheeding_pure false

end ContextM

namespace Context

open ContextM

variable (env : Environment)

/-! ## Computations that look -/

private theorem unheeding_keep {α : Type} (x : Noted α) : Unheeding (keep x) :=
  unheeding_of_notes fun _ _ => rfl

private theorem unheeding_note (n : Note) : Unheeding (note n) :=
  unheeding_modify fun _ _ => rfl

private theorem unheeding_report (d : Diagnostic) : Unheeding (report d) :=
  unheeding_modify fun _ _ => rfl

private theorem unheeding_remark (d : Diagnostic) : Unheeding (remark d) :=
  (unheeding_note _).bind fun _ => unheeding_report d

/-- A report on groups does not heed notes, whether it ends the run or not. -/
private theorem unheeding_unbalanced (d : Diagnostic) : Unheeding (unbalanced env d) := by
  refine (unheeding_remark d).bind fun _ => ?_
  split
  · exact unheeding_throw _
  · exact unheeding_pure _

theorem unheeding_missingHeader (d : Diagnostic) (spelling : String) :
    Unheeding (missingHeader env d spelling) :=
  composes_unheeding.missingHeader (unheeding_note _) (unheeding_report d)

private theorem unheeding_markOnce (file : String) : Unheeding (markOnce env file) :=
  unheeding_modify fun _ _ => rfl

theorem unheeding_findHeader (file : String) (name : HeaderName) :
    Unheeding (findHeader env file name) :=
  unheeding_of_notes fun _ _ => rfl

/-- Expansion does not look at the notes of the context. -/
theorem unheeding_expand (condition : Bool) (ts : List Token) :
    Unheeding (expand env condition ts) := by
  apply unheeding_of_notes
  intro c notes
  -- The expander makes notes of its own, and does not heed them either.
  have hsame := Expansion.silent_expand (x := { count := c.macros.count, notes := notes })
    (y := { count := c.macros.count, notes := c.notes }) rfl (expansion env condition c) ts
  have hexpansion : expansion env condition { c with notes := notes } = expansion env condition c :=
    rfl
  rw [expand_apply, expand_apply, hexpansion]
  generalize Expander.expand { count := c.macros.count, notes := c.notes }
    (expansion env condition c) ts = r at hsame ⊢
  simp only
  generalize Expander.expand { count := c.macros.count, notes := notes }
    (expansion env condition c) ts = r' at hsame ⊢
  cases r with
  | ok out x =>
    obtain ⟨x', rfl, hx⟩ := Expanded.of_silent_ok hsame
    simp only [silence, silent, afterExpansion, (Expander.silent_eq_iff.1 hx).2.2]
  | error e x =>
    obtain ⟨x', rfl, hx⟩ := Expanded.of_silent_error hsame
    simp only [silence, silent, afterExpansion, (Expander.silent_eq_iff.1 hx).2.2]

/-- Questions in a condition are answered without regard to notes. -/
private theorem silent_answerQueries (file : String) (c : Context) (notes : Array Note)
    (clauses : List Clause) : let answered := answerQueries (answer env file) c clauses
    let answered' := answerQueries (answer env file) { c with notes := notes } clauses
    answered'.1 = answered.1 ∧ answered'.2.silent = answered.2.silent := by
  induction clauses generalizing c with
  | nil => exact ⟨rfl, rfl⟩
  | cons clause rest ih =>
    cases clause with
    | token t =>
      obtain ⟨htokens, hleft⟩ := ih c
      exact ⟨congrArg (t :: ·) htokens, hleft⟩
    | query site q =>
      cases q with
      | defined name =>
        obtain ⟨htokens, hleft⟩ := ih c
        exact ⟨congrArg (answerToken site _ :: ·) htokens, hleft⟩
      -- The search may remember a header, which the notes do not change.
      | header name =>
        obtain ⟨htokens, hleft⟩ := ih (lookForHeader env file name c).2
        exact ⟨congrArg (answerToken site _ :: ·) htokens, hleft⟩

/-- Testing a condition does not heed notes. -/
private theorem unheeding_test (file : String) (condition : List Token) :
    Unheeding (test env file condition) := by
  refine (unheeding_keep _).bind fun clauses => ?_
  apply unheeding_of_notes
  intro c notes
  rw [get_bind, get_bind]
  obtain ⟨htokens, hleft⟩ := silent_answerQueries env file c notes clauses
  generalize answerQueries (answer env file) c clauses = answered at htokens hleft
  generalize answerQueries (answer env file) { c with notes := notes } clauses = answered'
    at htokens hleft
  obtain ⟨ts, c₁⟩ := answered
  obtain ⟨ts', c₁'⟩ := answered'
  -- The answers are the same, so the same is expanded.
  obtain rfl : ts' = ts := htokens
  simp only [set_bind]
  refine ((unheeding_expand env true ts').bind fun out => (unheeding_keep _).bind fun answer => ?_)
    hleft
  cases answer with
  | ok b => exact unheeding_pure b
  | error e => exact unheeding_throw _

private theorem unheeding_nameTest (holds : (String → Bool) → Option Token → Bool)
    (name : Option Token) : Unheeding (nameTest holds name) :=
  unheeding_get_bind (fun _ => unheeding_pure _) fun _ _ => rfl

/-! ## Directives -/

variable {env}

/-- Opening a group does not heed notes if testing its condition does not. -/
private theorem unheeding_openGroup {condition : ContextM Bool} (h : Unheeding condition) :
    Unheeding (openGroup condition) := by
  apply unheeding_of_notes
  intro c notes
  rw [openGroup_eq, openGroup_eq]
  exact ((h.ite _).bind fun _ => unheeding_modify fun _ _ => rfl) rfl

/-- Changing the open groups does not heed notes. -/
private theorem unheeding_setConditionals (next : Option (Noted Conditionals)) :
    Unheeding (setConditionals next) := by
  cases next with
  | none => exact unheeding_pure ()
  | some x => exact (unheeding_keep x).bind fun _ => unheeding_modify fun _ _ => rfl

/-- Another branch does not heed notes if testing its condition does not. -/
private theorem unheeding_elifBranch {condition : ContextM Bool} (h : Unheeding condition) :
    Unheeding (elifBranch condition) := by
  apply unheeding_of_notes
  intro c notes
  rw [elifBranch_eq, elifBranch_eq]
  refine ((h.ite _).bind fun holds => ?_) rfl
  exact unheeding_get_bind (fun _ => unheeding_setConditionals _) fun _ _ => rfl

/-- Looking for the group of a directive does not heed notes. -/
private theorem unheeding_closesGroup (base : Nat) (d : DirectiveLine) :
    Unheeding (closesGroup env base d) := by
  refine unheeding_get_bind (fun c => ?_) fun _ _ => rfl
  split
  · exact unheeding_pure true
  · exact (unheeding_unbalanced env _).bind fun _ => unheeding_pure false

/-- A directive that changes or closes the innermost group. -/
private theorem unheeding_closing (base : Nat) (d : DirectiveLine) {x : ContextM Unit}
    (h : Unheeding x) : Unheeding (do
      if ← closesGroup env base d then x
      pure (none : Option Inclusion)) := by
  refine (unheeding_closesGroup base d).bind fun closes => ?_
  cases closes with
  | true => exact h.bind fun _ => unheeding_pure none
  | false => exact unheeding_pure none

private theorem unheeding_opening {condition : ContextM Bool} (h : Unheeding condition) :
    Unheeding (do
      openGroup condition
      pure (none : Option Inclusion)) :=
  (unheeding_openGroup h).bind fun _ => unheeding_pure none

/-- Looking for the file of a directive does not heed notes. -/
private theorem unheeding_inclusion? (d : DirectiveLine) (target : IncludeTarget) (once : Bool) :
    Unheeding (inclusion? env d target once) :=
  composes_unheeding.inclusion? (unheeding_expand env false) unheeding_note
    (unheeding_findHeader env d.file) (fun _ => unheeding_missingHeader env _ _) target once

/-- No directive heeds notes. -/
private theorem unheeding_carryOut (base : Nat) (d : DirectiveLine) :
    Unheeding (carryOut env base d) := by
  obtain ⟨tokens, directive⟩ := d
  cases directive with
  | define name params body =>
    exact (unheeding_keep _).bind fun _ =>
      (unheeding_modify fun _ _ => rfl).bind fun _ => unheeding_pure none
  | undef name => exact (unheeding_modify fun _ _ => rfl).bind fun _ => unheeding_pure none
  | inclusion target once => exact unheeding_inclusion? _ target once
  | pragma args =>
    unfold carryOut
    simp only
    split
    · exact (unheeding_markOnce env _).bind fun _ => unheeding_pure none
    · exact unheeding_pure none
  | ifTrue condition => exact unheeding_opening (unheeding_test env _ condition)
  | ifdef name => exact unheeding_opening (unheeding_nameTest _ name)
  | ifndef name => exact unheeding_opening (unheeding_nameTest _ name)
  | elifTrue condition =>
    exact unheeding_closing base _ (unheeding_elifBranch (unheeding_test env _ condition))
  | elifdef name =>
    exact unheeding_closing base _ (unheeding_elifBranch (unheeding_nameTest _ name))
  | elifndef name =>
    exact unheeding_closing base _ (unheeding_elifBranch (unheeding_nameTest _ name))
  | otherwise =>
    exact unheeding_closing base _
      (unheeding_get_bind (fun _ => unheeding_setConditionals _) fun _ _ => rfl)
  | endif =>
    exact unheeding_closing base _
      (unheeding_get_bind (fun _ => unheeding_setConditionals _) fun _ _ => rfl)
  | other => exact (unheeding_note _).bind fun _ => unheeding_pure none

/-- No line that starts with `#` heeds notes. -/
theorem unheeding_directive (base : Nat) (line : List Token) :
    Unheeding (directive env base line) := by
  refine unheeding_get_bind (fun c => ?_) fun _ _ => rfl
  refine (unheeding_keep _).bind fun parsed => ?_
  cases parsed with
  | error e => exact (unheeding_note _).bind fun _ => unheeding_pure none
  | ok read =>
    simp only
    split
    · exact unheeding_pure none
    · exact unheeding_carryOut base read.1

/-! ## Files -/

/-- The end of a file does not heed notes. -/
theorem unheeding_closeGroups (file : String) (line base : Nat) :
    Unheeding (closeGroups env file line base) := by
  refine unheeding_get_bind (fun c => ?_) fun _ _ => rfl
  refine (unheeding_modify fun _ _ => rfl).bind fun _ => ?_
  split
  · exact unheeding_unbalanced env _
  · exact unheeding_pure ()

/-- Whether a file is entered does not depend on notes. -/
private theorem unheeding_enters (i : Inclusion) : Unheeding (enters env i) := by
  refine unheeding_get_bind (fun c => ?_) fun _ _ => rfl
  split
  · exact unheeding_pure false
  · cases i.once with
    | true => exact (unheeding_markOnce env i.path).bind fun _ => unheeding_pure true
    | false => exact unheeding_pure true

private theorem unheeding_reading (opened : Nat) (i : Inclusion) :
    Unheeding (reading env opened i) :=
  composes_unheeding.reading (fun _ => unheeding_remark _) (unheeding_remark _)

/-- Including a file does not heed notes. -/
theorem unheeding_including (opened : Nat) (i : Inclusion) :
    Unheeding (including env opened i) := by
  refine (unheeding_enters i).bind fun enters => ?_
  cases enters with
  | true => exact unheeding_reading opened i
  | false => exact unheeding_pure none

end Context

end Preproc
