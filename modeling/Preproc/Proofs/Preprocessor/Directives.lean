import Preproc.Proofs.Preprocessor.Effects
import Preproc.Proofs.Preprocessor.Recovery

/-!
# Lines that count

A line that starts with `#` counts if it can be read and does not stand in skipped code, where only
conditional directives count; all others leave nothing but notes. What a directive that counts
leaves alone is said part by part: `Keeps view act` is about one part of what is known, and
`Leaves act` about definitions, open groups and files to be included once, even if `act` fails.

## Key results

- `directive_of_heeded`, `directive_of_unheeded`: what a line that starts with `#` does
- `Aloof.carryOut_of_isConditional`: what conditional directives keep
- `once_of_carryOut`: only a pragma lets a file not be included again
- `leaves_inclusion?`: what looking for a file keeps
-/

namespace Preproc

/-- A line is kept with the directive that is read from it. -/
private theorem tokens_of_parseLine {skipping : Bool} {line rest : List Token} {d : DirectiveLine}
    (h : (parseLine skipping line).value = .ok (d, rest)) : d.tokens = line := by
  unfold parseLine parseLineWith at h
  split at h
  · cases h
  · split at h
    · cases h
      rfl
    · cases h

/-- Whether a directive is a pragma that asks for its file to be included only once. -/
def Directive.isPragmaOnce : Directive → Bool
  | pragma args => asksOnce args
  | _ => false

namespace Context

/-! ## Lines that count -/

/-- The directive that a line holds, if it counts: in skipped code, only conditional directives
do. -/
def heeded? (c : Context) (line : List Token) : Option DirectiveLine :=
  match (parseLine (!c.conditionals.active) line).value with
  | .error _ => none
  | .ok (d, _) => if !c.conditionals.active && !d.directive.isConditional then none else some d

/-- What is known after the notes that reading a line makes. -/
def afterReading (c : Context) (line : List Token) : Context :=
  c.noting (parseLine (!c.conditionals.active) line).notes

/-- A directive that counts is carried out. -/
theorem directive_of_heeded {c : Context} {line : List Token} {d : DirectiveLine}
    (h : c.heeded? line = some d) (env : Environment) (base : Nat) :
    directive env base line c = carryOut env base d (c.afterReading line) := by
  unfold heeded? at h
  unfold directive afterReading
  rw [ContextM.get_bind, ContextM.bind_of_ok (keep_apply _ c)]
  -- Only whether the line could be read matters, and what was read.
  generalize parseLine (!c.conditionals.active) line = parsed at h ⊢
  obtain ⟨value, notes⟩ := parsed
  cases value with
  | error e => cases h
  | ok read =>
    obtain ⟨d', rest⟩ := read
    simp only at h ⊢
    split at h
    · cases h
    · rename_i hcounts
      cases h
      rw [if_neg hcounts]

/-- A line that does not count leaves nothing but notes. -/
theorem directive_of_unheeded {c : Context} {line : List Token} (h : c.heeded? line = none)
    (env : Environment) (base : Nat) :
    ∃ notes, directive env base line c = .ok none { c with notes } := by
  unfold heeded? at h
  unfold directive
  rw [ContextM.get_bind, ContextM.bind_of_ok (keep_apply _ c)]
  -- The line is parsed once in each of the two functions.
  generalize parseLine (!c.conditionals.active) line = parsed at h ⊢
  obtain ⟨value, notes⟩ := parsed
  cases value with
  | error e => exact ⟨_, rfl⟩
  | ok read =>
    obtain ⟨d, rest⟩ := read
    simp only at h ⊢
    split at h
    · rename_i hskipped
      rw [if_pos hskipped]
      exact ⟨_, rfl⟩
    · cases h

/-- A directive that counts stands in its line. -/
theorem tokens_of_heeded {c : Context} {line : List Token} {d : DirectiveLine}
    (h : c.heeded? line = some d) : d.tokens = line := by
  unfold heeded? at h
  split at h
  · cases h
  · rename_i d' rest hread
    split at h
    · cases h
    · cases h
      exact tokens_of_parseLine hread

/-! ## Parts that are kept -/

/-- An action that leaves a part of what is known alone, unless it fails. -/
def Keeps {α β : Type} (view : Context → β) (act : ContextM α) : Prop :=
  ∀ ⦃c : Context⦄ ⦃a : α⦄ ⦃c' : Context⦄, act c = .ok a c' → view c' = view c

/-- A part of what is known to which neither open groups nor notes belong. -/
def Aloof {β : Type} (view : Context → β) : Prop :=
  ∀ (c : Context) (conditionals : Conditionals) (notes : Array Note),
    view { c with conditionals, notes } = view c

private theorem aloof_once : Aloof Context.once := fun _ _ _ => rfl

/-- Reports have nothing to do with groups and notes. -/
theorem aloof_diagnostics : Aloof Context.diagnostics := fun _ _ _ => rfl

section Keeps

variable {α β γ : Type} {view : Context → γ}

/-- What two actions keep, they keep together. -/
theorem Keeps.bind {x : ContextM α} {f : α → ContextM β} (hx : Keeps view x)
    (hf : ∀ a, Keeps view (f a)) : Keeps view (x >>= f) := by
  intro c b c' h
  obtain ⟨a, c₁, h₁, h₂⟩ := ContextM.bind_eq_ok_iff.1 h
  exact (hf a h₂).trans (hx h₁)

/-- Giving a result keeps everything. -/
theorem keeps_pure (a : α) : Keeps view (pure a : ContextM α) := by
  intro c b c' h
  cases h
  rfl

/-- A failure has no result to compare. -/
theorem keeps_throw (e : Failure) : Keeps view (throw e : ContextM α) := by
  intro c b c' h
  cases h

/-- Looking at what is known keeps everything. -/
theorem keeps_get : Keeps view (get : ContextM Context) := by
  intro c b c' h
  cases h
  rfl

/-- A condition that is tested only if it matters keeps what it keeps when tested. -/
theorem Keeps.ite {condition : ContextM Bool} (h : Keeps view condition) (tested : Bool) :
    Keeps view (if tested then condition else pure false) := by
  cases tested with
  | true => exact h
  | false => exact keeps_pure false

theorem keeps_nameTest (holds : (String → Bool) → Option Token → Bool) (name : Option Token) :
    Keeps view (nameTest holds name) :=
  keeps_get.bind fun _ => keeps_pure _

/-- Whether a file is entered keeps what marking it keeps. -/
theorem keeps_enters {env : Environment} {i : Inclusion}
    (hmarks : Keeps view (markOnce env i.path)) : Keeps view (enters env i) := by
  refine keeps_get.bind fun c => ?_
  split
  · exact keeps_pure false
  · split
    · exact hmarks.bind fun _ => keeps_pure true
    · exact keeps_pure true

/-- A directive that changes the innermost group does so if it is in place. -/
theorem Keeps.closing {env : Environment} {base : Nat} {d : DirectiveLine} {act : ContextM Unit}
    (hcloses : Keeps view (closesGroup env base d)) (h : Keeps view act) :
    Keeps view (do
      if ← closesGroup env base d then act
      pure (none : Option Inclusion)) := by
  refine hcloses.bind fun b => ?_
  cases b with
  | true => exact h.bind fun _ => keeps_pure none
  | false => exact keeps_pure none

/-- What is kept, step by step. -/
theorem composes_keeps : Composes fun _ act => Keeps view act :=
  ⟨keeps_pure, keeps_throw, Keeps.bind⟩

private theorem LooksOnly.keeps_once {act : ContextM α} (h : LooksOnly act) :
    Keeps Context.once act :=
  fun _ _ _ hok => (h hok).once

variable (hview : Aloof view)
include hview

/-- Taking a result with its notes keeps such a part. -/
theorem Aloof.keep (x : Noted α) : Keeps view (keep x) := by
  intro c b c' h
  cases h
  exact hview c c.conditionals _

/-- A note keeps such a part. -/
theorem Aloof.note (n : Note) : Keeps view (note n) := by
  intro c b c' h
  cases h
  exact hview c c.conditionals _

/-- A change of the open groups keeps such a part. -/
theorem Aloof.set (f : Conditionals → Conditionals) :
    Keeps view (modify fun c => { c with conditionals := f c.conditionals }) := by
  intro c b c' h
  cases h
  exact hview c _ c.notes

/-- Opening a group keeps what its condition keeps. -/
theorem Aloof.openGroup {condition : ContextM Bool} (h : Keeps view condition) :
    Keeps view (openGroup condition) := by
  intro c a c' hok
  rw [openGroup_eq] at hok
  exact ((h.ite _).bind fun holds => hview.set (·.openGroup holds)) hok

/-- Changing the open groups with notes keeps such a part. -/
theorem Aloof.setConditionals (next : Option (Noted Conditionals)) :
    Keeps view (setConditionals next) := by
  cases next with
  | none => exact keeps_pure ()
  | some x => exact (hview.keep x).bind fun conditionals => hview.set fun _ => conditionals

/-- Going on with another branch keeps what its condition keeps. -/
theorem Aloof.elifBranch {condition : ContextM Bool} (h : Keeps view condition) :
    Keeps view (elifBranch condition) := by
  intro c a c' hok
  rw [elifBranch_eq] at hok
  exact ((h.ite _).bind fun _ => keeps_get.bind fun _ => hview.setConditionals _) hok

/-- A condition is tested by answering its questions and expanding what is left. -/
theorem Aloof.test {env : Environment} {file : String}
    (hanswers : ∀ c clauses, view (answerQueries (answer env file) c clauses).2 = view c)
    (hexpand : ∀ ts, Keeps view (expand env true ts)) (condition : List Token) :
    Keeps view (test env file condition) := by
  refine (hview.keep _).bind fun clauses => ?_
  intro c b c' h
  rw [ContextM.get_bind] at h
  obtain ⟨_, c₁, hset, h⟩ := ContextM.bind_eq_ok_iff.1 h
  cases hset
  -- The questions are answered first, and what they leave is where the rest starts.
  rw [← hanswers c clauses]
  refine ((hexpand _).bind fun ts => (hview.keep _).bind fun answer => ?_) h
  cases answer with
  | ok b => exact keeps_pure b
  | error e => exact keeps_throw _

omit hview in
/-- Looking for the group of a directive keeps what a report on a missing one keeps. -/
private theorem keeps_closesGroup {env : Environment}
    (hunbalanced : ∀ p, Keeps view (unbalanced env p)) (base : Nat) (d : DirectiveLine) :
    Keeps view (closesGroup env base d) := by
  refine keeps_get.bind fun c => ?_
  split
  · exact keeps_pure true
  · exact (hunbalanced _).bind fun _ => keeps_pure false

/-- Closing groups keeps what a report on open ones keeps. -/
theorem Aloof.closeGroups {env : Environment} (hunbalanced : ∀ p, Keeps view (unbalanced env p))
    (file : String) (line base : Nat) : Keeps view (closeGroups env file line base) := by
  refine keeps_get.bind fun c => (hview.set fun _ => _).bind fun _ => ?_
  split
  · exact hunbalanced _
  · exact keeps_pure ()

/-- A conditional directive keeps what testing a condition and finding groups unbalanced keep. -/
theorem Aloof.carryOut_of_isConditional {env : Environment} {base : Nat} {d : DirectiveLine}
    (hd : d.directive.isConditional = true)
    (htest : ∀ condition, Keeps view (Context.test env d.file condition))
    (hunbalanced : ∀ p, Keeps view (unbalanced env p)) : Keeps view (carryOut env base d) := by
  -- Directives that open a group test a condition, and the others look for their group first.
  have opens : ∀ {condition : ContextM Bool}, Keeps view condition →
      Keeps view (do
        Context.openGroup condition
        pure (none : Option Inclusion)) :=
    fun h => (hview.openGroup h).bind fun _ => keeps_pure none
  have closes : Keeps view (closesGroup env base d) := keeps_closesGroup hunbalanced base d
  obtain ⟨tokens, directive⟩ := d
  cases directive with
  | ifTrue condition => exact opens (htest condition)
  | ifdef name => exact opens (keeps_nameTest _ name)
  | ifndef name => exact opens (keeps_nameTest _ name)
  | elifTrue condition => exact closes.closing (hview.elifBranch (htest condition))
  | elifdef name => exact closes.closing (hview.elifBranch (keeps_nameTest _ name))
  | elifndef name => exact closes.closing (hview.elifBranch (keeps_nameTest _ name))
  | otherwise => exact closes.closing (keeps_get.bind fun _ => hview.setConditionals _)
  | endif => exact closes.closing (keeps_get.bind fun _ => hview.setConditionals _)
  | _ => cases hd

end Keeps

/-- Expansion reports nothing. -/
theorem keeps_expand (env : Environment) (condition : Bool) (ts : List Token) :
    Keeps Context.diagnostics (expand env condition ts) := by
  intro c out c' h
  rw [expand_apply] at h
  split at h
  · cases h
    rfl
  · cases h

/-- Looking for a header reports nothing. -/
theorem keeps_findHeader (env : Environment) (file : String) (name : HeaderName) :
    Keeps Context.diagnostics (findHeader env file name) := by
  intro c a c' h
  cases h
  rfl

/-! ## Files to be included once -/

private theorem keeps_once_unbalanced (env : Environment) (p : Diagnostic) :
    Keeps Context.once (unbalanced env p) :=
  (looksOnly_unbalanced env p).keeps_once

/-- Closing groups does not say what to include once. -/
theorem keeps_once_closeGroups (env : Environment) (file : String) (line base : Nat) :
    Keeps Context.once (closeGroups env file line base) :=
  aloof_once.closeGroups (keeps_once_unbalanced env) file line base

/-- Only a pragma lets a file not be included again, and this is the file that it stands in. -/
theorem once_of_carryOut {env : Environment} {base : Nat} {d : DirectiveLine} {c c' : Context}
    {r : Option Inclusion} (h : carryOut env base d c = .ok r c') :
    c'.once = if d.directive.isPragmaOnce then canonicalName env d.file :: c.once else c.once := by
  cases hd : d.directive.isConditional with
  | true =>
    -- No conditional directive is a pragma.
    have hpragma : ¬d.directive.isPragmaOnce = true := by
      cases hdirective : d.directive with
      | pragma args =>
        rw [hdirective] at hd
        cases hd
      | _ => exact Bool.false_ne_true
    rw [if_neg hpragma]
    exact aloof_once.carryOut_of_isConditional hd
      (fun condition => (looksOnly_test env _ condition).keeps_once) (keeps_once_unbalanced env) h
  | false =>
    obtain ⟨tokens, directive⟩ := d
    cases directive with
    | pragma args =>
      unfold carryOut at h
      simp only at h
      show c'.once = if Directive.asksOnce args then _ else _
      split at h
      · rename_i honce
        cases h
        rw [if_pos honce]
      · rename_i honce
        cases h
        rw [if_neg honce]
    | define name params body =>
      cases h
      rfl
    | undef name =>
      cases h
      rfl
    | other =>
      cases h
      rfl
    | inclusion target once => exact (looksOnly_inclusion? _ _ _ _ h).once
    | _ => cases hd

/-! ## Actions that may fail -/

/-- An action that leaves definitions, open groups and files to be included once alone, even if it
fails. -/
def Leaves {α : Type} (act : ContextM α) : Prop :=
  ∀ c : Context, c.Alike (ContextM.left (act c))

/-- What two actions leave alone, they leave alone together. -/
theorem Leaves.bind {α β : Type} {x : ContextM α} {f : α → ContextM β} (hx : Leaves x)
    (hf : ∀ a, Leaves (f a)) : Leaves (x >>= f) := by
  intro c
  have hfirst := hx c
  cases hxc : x c with
  | ok a c₁ =>
    rw [ContextM.bind_of_ok hxc]
    rw [hxc] at hfirst
    exact hfirst.trans (hf a c₁)
  -- The second is not reached.
  | error e c₁ =>
    rw [ContextM.bind_of_error hxc]
    rw [hxc] at hfirst
    exact hfirst

theorem leaves_pure {α : Type} (a : α) : Leaves (pure a : ContextM α) :=
  fun c => .refl c

theorem leaves_throw {α : Type} (e : Failure) : Leaves (throw e : ContextM α) :=
  fun c => .refl c

private theorem leaves_note (n : Note) : Leaves (note n) :=
  fun _ => ⟨rfl, rfl, rfl⟩

private theorem leaves_report (d : Diagnostic) : Leaves (report d) :=
  fun _ => ⟨rfl, rfl, rfl⟩

private theorem leaves_remark (d : Diagnostic) : Leaves (remark d) :=
  (leaves_note _).bind fun _ => leaves_report d

private theorem composes_leaves : Composes fun _ act => Leaves act :=
  ⟨leaves_pure, leaves_throw, Leaves.bind⟩

theorem leaves_missingHeader (env : Environment) (d : Diagnostic) (spelling : String) :
    Leaves (missingHeader env d spelling) :=
  composes_leaves.missingHeader (leaves_note _) (leaves_report d)

/-- Looking for a header leaves all alone but what was looked up. -/
theorem leaves_findHeader (env : Environment) (file : String) (name : HeaderName) :
    Leaves (findHeader env file name) :=
  fun _ => ⟨rfl, rfl, rfl⟩

/-- Expansion leaves all alone but its counts. -/
private theorem leaves_expand (env : Environment) (condition : Bool) (ts : List Token) :
    Leaves (expand env condition ts) := by
  intro c
  rw [expand_apply]
  split
  · exact ⟨rfl, rfl, rfl⟩
  · exact ⟨rfl, rfl, rfl⟩

theorem leaves_reading (env : Environment) (opened : Nat) (i : Inclusion) :
    Leaves (reading env opened i) :=
  composes_leaves.reading (fun _ => leaves_remark _) (leaves_remark _)

/-- Looking for a file to be included leaves all alone. -/
theorem leaves_inclusion? (env : Environment) (d : DirectiveLine) (target : IncludeTarget)
    (once : Bool) : Leaves (inclusion? env d target once) :=
  composes_leaves.inclusion? (leaves_expand env false) leaves_note (leaves_findHeader env d.file)
    (fun _ => leaves_missingHeader _ _ _) target once

end Context

end Preproc
