import Preproc.Proofs.Preprocessor.Effects

/-!
# Recovering from a problem

The settings say whether a run recovers from groups that do not match and from headers that are
missing, or ends there. Two computations that differ only in this do the same until the first such
problem is reported, and then one of them ends (`Follows`). Sequences keep this relation, so it is
shown once for each thing that a run does.

## Key results

- `Splits.after`, `Splits.grows`: what was reported before stays reported
- `Follows.bind`: sequences of computations that go together until a problem go together until then
- `follows_directive`, `follows_including`, `follows_closeGroups`: a run is put together from these
-/

namespace Preproc

/-- The failure with which a problem ends a run that does not recover; `none` if every run goes on
after it. -/
def Diagnostic.strictFailure? (d : Diagnostic) : Option Failure :=
  match d.problem.topic, d.problem with
  | .conditional, _ => some (.unbalanced d)
  | .inclusion, .headerNotFound _ => some (.headerNotFound d)
  | _, _ => none

namespace Environment

/-- The same, but without recovery. -/
def strict (env : Environment) : Environment :=
  { env with config := { env.config with errorRecovery := false } }

/-- The same, but with recovery. -/
def recovering (env : Environment) : Environment :=
  { env with config := { env.config with errorRecovery := true } }

end Environment

/-! ## What is reported -/

/-- Further problems were reported, none of which ends a run. -/
def Quietly (before after : List Diagnostic) : Prop :=
  ∃ ds, (∀ d ∈ ds, d.strictFailure? = none) ∧ after = before ++ ds

/-- Further problems were reported; the last, and no other, ends a run that does not recover. -/
def EndsIn (e : Failure) (before after : List Diagnostic) : Prop :=
  ∃ ds d, (∀ d ∈ ds, d.strictFailure? = none) ∧ d.strictFailure? = some e ∧
    after = before ++ (ds ++ [d])

theorem Quietly.refl (ds : List Diagnostic) : Quietly ds ds :=
  ⟨[], by simp, (List.append_nil ds).symm⟩

/-- What was reported twice without ending a run ends none together. -/
theorem Quietly.trans {ds₁ ds₂ ds₃ : List Diagnostic} (h : Quietly ds₁ ds₂)
    (h' : Quietly ds₂ ds₃) : Quietly ds₁ ds₃ := by
  obtain ⟨ds, hds, rfl⟩ := h
  obtain ⟨ds', hds', rfl⟩ := h'
  refine ⟨ds ++ ds', ?_, List.append_assoc ..⟩
  intro d hd
  cases List.mem_append.1 hd with
  | inl hd => exact hds d hd
  | inr hd => exact hds' d hd

/-- The problem that ends a run may come after others that do not. -/
private theorem Quietly.endsIn {e : Failure} {ds₁ ds₂ ds₃ : List Diagnostic} (h : Quietly ds₁ ds₂)
    (h' : EndsIn e ds₂ ds₃) : EndsIn e ds₁ ds₃ := by
  obtain ⟨ds', d, hds', hd, rfl⟩ := h'
  obtain ⟨ds, hds, heq⟩ := h.trans ⟨ds', hds', rfl⟩
  refine ⟨ds, d, hds, hd, ?_⟩
  rw [← List.append_assoc, heq, List.append_assoc]

/-- A problem that ends no run was reported. -/
private theorem quietly_report {d : Diagnostic} (h : d.strictFailure? = none)
    (ds : List Diagnostic) : Quietly ds (ds ++ [d]) := by
  refine ⟨[d], ?_, rfl⟩
  intro d' hd'
  rw [List.mem_singleton.1 hd']
  exact h

/-- How a computation that does not recover and one that does compare, if the problems `before` had
been reported: they agree, or the first has ended at a problem that the second has reported, too.
The problems reported after them are `strict` and `recovering`. -/
inductive Splits (before : List Diagnostic) (agree : Prop) (failure : Option Failure)
    (strict recovering : List Diagnostic) : Prop
  | together (hagree : agree) (hquiet : Quietly before strict) (hsame : strict = recovering)
  | apart {e : Failure} (hfailure : failure = some e) (hends : EndsIn e before strict)
      (hreported : strict <+: recovering)

namespace Splits

variable {before strict recovering : List Diagnostic} {agree : Prop} {failure : Option Failure}

/-- What goes quietly before changes nothing. -/
theorem after {earlier : List Diagnostic} (h : Splits before agree failure strict recovering)
    (hquiet : Quietly earlier before) : Splits earlier agree failure strict recovering := by
  cases h with
  | together hagree hquiet' hsame => exact .together hagree (hquiet.trans hquiet') hsame
  | apart hfailure hends hreported => exact .apart hfailure (hquiet.endsIn hends) hreported

/-- What a run without recovery reports, the other one reports, too. -/
private theorem strict_le (h : Splits before agree failure strict recovering) :
    strict <+: recovering := by
  cases h with
  | together _ _ hsame => exact hsame ▸ List.prefix_refl strict
  | apart _ _ hreported => exact hreported

/-- What was reported before stays reported. -/
theorem grows (h : Splits before agree failure strict recovering) : before <+: recovering := by
  -- What was reported before is reported by the one that ends, and so by the other.
  refine List.IsPrefix.trans ?_ h.strict_le
  cases h with
  | together _ hquiet _ =>
    obtain ⟨ds, _, rfl⟩ := hquiet
    exact List.prefix_append _ _
  | apart _ hends _ =>
    obtain ⟨ds, d, _, _, rfl⟩ := hends
    exact List.prefix_append _ _

/-- Two computations are compared by comparing how they begin and how they go on: if they have not
split at the beginning, they go on from the same, a failure stays what it is, and what was reported
stays reported. -/
theorem sequel {strict' recovering' : List Diagnostic} {agree' : Prop} {failure' : Option Failure}
    (h : Splits before agree failure strict recovering)
    (hsame : agree → Splits strict agree' failure' strict' recovering')
    (hfailed : failure.isSome = true → failure' = failure ∧ strict' = strict)
    (hgrows : recovering <+: recovering') :
    Splits before agree' failure' strict' recovering' := by
  cases h with
  | together hagree hquiet _ => exact (hsame hagree).after hquiet
  | apart hfailure hends hreported =>
    -- The first has ended, and the second can only add to what is reported.
    obtain ⟨hfailure', rfl⟩ := hfailed (by rw [hfailure]; rfl)
    exact .apart (hfailure'.trans hfailure) hends (hreported.trans hgrows)

end Splits

/-! ## Computations that go together -/

namespace ContextM

variable {α β : Type}

/-- What is known after a computation, whether it has failed or not. -/
def left : EStateM.Result Failure Context α → Context
  | .ok _ c | .error _ c => c

/-- What a computation has failed with. -/
def failure? : EStateM.Result Failure Context α → Option Failure
  | .ok .. => none
  | .error e _ => some e

/-- The computation `x` does what `y` does until a problem is reported with which it ends. -/
def Follows (x y : ContextM α) : Prop :=
  ∀ c : Context, Splits c.diagnostics (x c = y c) (failure? (x c)) (left (x c)).diagnostics
    (left (y c)).diagnostics

private theorem follows_self {x : ContextM α}
    (h : ∀ c, Quietly c.diagnostics (left (x c)).diagnostics) : Follows x x :=
  fun c => .together rfl (h c) rfl

/-- Sequences go together until a problem if their parts do. -/
theorem Follows.bind {x y : ContextM α} {f g : α → ContextM β} (hxy : Follows x y)
    (hfg : ∀ a, Follows (f a) (g a)) : Follows (x >>= f) (y >>= g) := by
  intro c
  refine (hxy c).sequel ?_ ?_ ?_
  · -- They have not split in the first part, so the second part starts from the same.
    intro hagree
    cases hx : x c with
    | ok a c₁ =>
      rw [bind_of_ok hx, bind_of_ok (hagree.symm.trans hx)]
      exact hfg a c₁
    | error e c₁ =>
      rw [bind_of_error hx, bind_of_error (hagree.symm.trans hx)]
      exact .together rfl (.refl _) rfl
  · -- After a failure there is no second part.
    intro hfailed
    cases hx : x c with
    | ok a c₁ =>
      rw [hx] at hfailed
      cases hfailed
    | error e c₁ =>
      rw [bind_of_error hx]
      exact ⟨rfl, rfl⟩
  · -- Whether it is recovered from or not, the problem stays reported.
    cases hy : y c with
    | ok a c₁ =>
      rw [bind_of_ok hy]
      exact (hfg a c₁).grows
    | error e c₁ =>
      rw [bind_of_error hy]
      exact List.prefix_refl _

theorem follows_pure (a : α) : Follows (pure a) (pure a) :=
  follows_self fun c => .refl c.diagnostics

/-- A failure for another reason goes together. -/
theorem follows_throw (e : Failure) : Follows (throw e : ContextM α) (throw e) :=
  follows_self fun c => .refl c.diagnostics

private theorem composes_follows : Context.Composes fun _ act => Follows act act :=
  ⟨follows_pure, follows_throw, Follows.bind⟩

theorem follows_get : Follows (get : ContextM Context) get :=
  follows_self fun c => .refl c.diagnostics

/-- Changing anything but the problems that were reported. -/
private theorem follows_modify {f : Context → Context}
    (hf : ∀ c, (f c).diagnostics = c.diagnostics) : Follows (modify f) (modify f) := by
  apply follows_self
  intro c
  show Quietly c.diagnostics (f c).diagnostics
  rw [hf]
  exact .refl _

/-- A condition that is tested only if `tested` holds goes together, too. -/
theorem Follows.ite {x y : ContextM Bool} (h : Follows x y) (tested : Bool) :
    Follows (if tested then x else pure false) (if tested then y else pure false) := by
  cases tested with
  | true => exact h
  | false => exact follows_pure false

end ContextM

namespace Context

open ContextM

variable (env : Environment)

theorem follows_keep {α : Type} (x : Noted α) : Follows (keep x) (keep x) :=
  follows_self fun c => .refl c.diagnostics

private theorem follows_note (n : Note) : Follows (note n) (note n) :=
  follows_modify fun _ => by rfl

private theorem follows_remark {d : Diagnostic} (hd : d.strictFailure? = none) :
    Follows (remark d) (remark d) :=
  (follows_note _).bind fun _ => follows_self fun c => quietly_report hd c.diagnostics

/-- Groups that do not match are reported by both, and one ends. -/
private theorem follows_unbalanced {d : Diagnostic} (hd : d.strictFailure? = some (.unbalanced d)) :
    Follows (unbalanced env.strict d) (unbalanced env.recovering d) := by
  intro c
  exact .apart rfl ⟨[], d, by simp, hd, rfl⟩ (List.prefix_refl _)

/-- A missing header is reported by both, and one ends. -/
theorem follows_missingHeader {d : Diagnostic} (hd : d.strictFailure? = some (.headerNotFound d))
    (spelling : String) :
    Follows (missingHeader env.strict d spelling) (missingHeader env.recovering d spelling) := by
  intro c
  exact .apart rfl ⟨[], d, by simp, hd, rfl⟩ (List.prefix_refl _)

theorem follows_findHeader (file : String) (name : HeaderName) :
    Follows (findHeader env.strict file name) (findHeader env.recovering file name) :=
  follows_self fun c => .refl c.diagnostics

private theorem follows_markOnce (file : String) :
    Follows (markOnce env.strict file) (markOnce env.recovering file) :=
  follows_modify fun _ => by rfl

/-- An expansion may fail, but not for a problem that a run recovers from. -/
theorem follows_expand (condition : Bool) (ts : List Token) :
    Follows (expand env.strict condition ts) (expand env.recovering condition ts) := by
  refine follows_self fun c => ?_
  rw [expand_apply]
  split
  · exact .refl c.diagnostics
  · refine ⟨_, fun d hd => ?_, rfl⟩
    rw [Diagnostic.strictFailure?, (of_mem_expansionProblems hd).2]
    rfl

/-- Answering the questions of a condition reports nothing. -/
theorem diagnostics_answerQueries (file : String) (c : Context) (clauses : List Clause) :
    (answerQueries (answer env file) c clauses).2.diagnostics = c.diagnostics :=
  answerQueries_induction (P := fun c₁ => c₁.diagnostics = c.diagnostics) (fun _ _ h => h) clauses
    rfl

/-- Testing a condition goes together. -/
private theorem follows_test (file : String) (condition : List Token) :
    Follows (test env.strict file condition) (test env.recovering file condition) := by
  refine (follows_keep _).bind fun clauses => ?_
  intro c
  -- The questions are answered alike, and answering them reports nothing.
  have hsame : answer env.strict file = answer env.recovering file := rfl
  have hquiet := diagnostics_answerQueries env.recovering file c clauses
  rw [get_bind, get_bind, hsame]
  generalize answerQueries (answer env.recovering file) c clauses = answered at hquiet
  obtain ⟨ts, c'⟩ := answered
  simp only [set_bind]
  rw [← hquiet]
  refine ((follows_expand env true ts).bind fun out => (follows_keep _).bind fun answer => ?_) c'
  cases answer with
  | ok b => exact follows_pure b
  | error e => exact follows_throw _

private theorem follows_nameTest (holds : (String → Bool) → Option Token → Bool)
    (name : Option Token) : Follows (nameTest holds name) (nameTest holds name) :=
  follows_get.bind fun _ => follows_pure _

/-! ## Directives that go together -/

/-- Opening a group goes together if testing its condition does. -/
private theorem follows_openGroup {x y : ContextM Bool} (h : Follows x y) :
    Follows (openGroup x) (openGroup y) := by
  intro c
  rw [openGroup_eq, openGroup_eq]
  exact ((h.ite _).bind fun _ => follows_modify fun _ => by rfl) c

/-- Changing the open groups goes together. -/
private theorem follows_setConditionals (next : Option (Noted Conditionals)) :
    Follows (setConditionals next) (setConditionals next) := by
  cases next with
  | none => exact follows_pure ()
  | some x => exact (follows_keep x).bind fun _ => follows_modify fun _ => by rfl

/-- Another branch goes together if testing its condition does. -/
private theorem follows_elifBranch {x y : ContextM Bool} (h : Follows x y) :
    Follows (elifBranch x) (elifBranch y) := by
  intro c
  rw [elifBranch_eq, elifBranch_eq]
  exact ((h.ite _).bind fun _ => follows_get.bind fun _ => follows_setConditionals _) c

/-- Looking for the group of a directive goes together until there is none. -/
private theorem follows_closesGroup (base : Nat) (d : DirectiveLine) :
    Follows (closesGroup env.strict base d) (closesGroup env.recovering base d) := by
  refine follows_get.bind fun c => ?_
  split
  · exact follows_pure true
  · exact (follows_unbalanced env rfl).bind fun _ => follows_pure false

/-- A directive that continues or closes a group. -/
private theorem follows_closing (base : Nat) (d : DirectiveLine) {x y : ContextM Unit}
    (h : Follows x y) : Follows
      (do
        if ← closesGroup env.strict base d then x
        pure (none : Option Inclusion))
      (do
        if ← closesGroup env.recovering base d then y
        pure none) := by
  refine (follows_closesGroup env base d).bind fun closes => ?_
  cases closes with
  | true => exact h.bind fun _ => follows_pure none
  | false => exact follows_pure none

/-- Looking for the file of a directive goes together until there is none. -/
private theorem follows_inclusion? (d : DirectiveLine) (target : IncludeTarget) (once : Bool) :
    Follows (inclusion? env.strict d target once) (inclusion? env.recovering d target once) := by
  -- However its name was read, the file is looked for in the same way.
  have hheader : ∀ name, Follows (inclusion? env.strict d (.header name) once)
      (inclusion? env.recovering d (.header name) once) := by
    intro name
    unfold inclusion?
    simp only [pure_bind]
    refine (follows_findHeader env d.file name).bind fun found => ?_
    cases found with
    | some path => exact follows_pure _
    | none => exact (follows_missingHeader env rfl _).bind fun _ => follows_pure none
  cases target with
  | header name => exact hheader name
  | computed ts =>
    refine (follows_expand env false ts).bind fun out => ?_
    cases readHeaderName out with
    | ok read => exact hheader read.1
    | error e => exact (follows_note _).bind fun _ => follows_pure none

/-- Every directive goes together until a problem. -/
private theorem follows_carryOut (base : Nat) (d : DirectiveLine) :
    Follows (carryOut env.strict base d) (carryOut env.recovering base d) := by
  obtain ⟨tokens, directive⟩ := d
  cases directive with
  -- These report nothing, or only what both report.
  | define name params body =>
    exact (follows_keep _).bind fun _ => (follows_modify fun _ => by rfl).bind fun _ =>
      follows_pure none
  | undef name => exact (follows_modify fun _ => by rfl).bind fun _ => follows_pure none
  | inclusion target once => exact follows_inclusion? env _ target once
  | pragma args =>
    unfold carryOut
    simp only
    split
    · exact (follows_markOnce env _).bind fun _ => follows_pure none
    · exact follows_pure none
  | other => exact (follows_note _).bind fun _ => follows_pure none
  | ifTrue condition =>
    exact (follows_openGroup (follows_test env _ condition)).bind fun _ => follows_pure none
  | ifdef name =>
    exact (follows_openGroup (follows_nameTest _ name)).bind fun _ => follows_pure none
  | ifndef name =>
    exact (follows_openGroup (follows_nameTest _ name)).bind fun _ => follows_pure none
  -- Without a group the strict one stops here, and the other goes on.
  | elifTrue condition =>
    exact follows_closing env base _ (follows_elifBranch (follows_test env _ condition))
  | elifdef name => exact follows_closing env base _ (follows_elifBranch (follows_nameTest _ name))
  | elifndef name => exact follows_closing env base _ (follows_elifBranch (follows_nameTest _ name))
  | otherwise =>
    exact follows_closing env base _ (follows_get.bind fun _ => follows_setConditionals _)
  | endif => exact follows_closing env base _ (follows_get.bind fun _ => follows_setConditionals _)

/-- A line that starts with `#`. -/
theorem follows_directive (base : Nat) (line : List Token) :
    Follows (directive env.strict base line) (directive env.recovering base line) := by
  refine follows_get.bind fun c => (follows_keep _).bind fun parsed => ?_
  cases parsed with
  -- A line that cannot be read is noted by both.
  | error e => exact (follows_note _).bind fun _ => follows_pure none
  | ok read =>
    obtain ⟨d, rest⟩ := read
    simp only
    split
    · exact follows_pure none
    · exact follows_carryOut env base d

/-! ## Files -/

/-- The end of a file. -/
theorem follows_closeGroups (file : String) (line base : Nat) :
    Follows (closeGroups env.strict file line base)
      (closeGroups env.recovering file line base) := by
  refine follows_get.bind fun c => ?_
  simp only
  refine (follows_modify fun _ => by rfl).bind fun _ => ?_
  split
  · exact follows_unbalanced env rfl
  · exact follows_pure ()

/-- Whether a file is entered goes together. -/
private theorem follows_enters (i : Inclusion) :
    Follows (enters env.strict i) (enters env.recovering i) := by
  -- Nothing here depends on recovery.
  show Follows (enters env i) (enters env i)
  refine follows_get.bind fun c => ?_
  split
  · exact follows_pure false
  · split
    · exact (follows_modify fun _ => by rfl).bind fun _ => follows_pure true
    · exact follows_pure true

/-- A file that is nested too deeply or cannot be read is reported, but that a run does not recover
is no reason for it to end there. -/
private theorem follows_reading (opened : Nat) (i : Inclusion) :
    Follows (reading env.strict opened i) (reading env.recovering opened i) := by
  show Follows (reading env opened i) (reading env opened i)
  exact composes_follows.reading (fun _ => follows_remark rfl) (follows_remark rfl)

/-- The text of a file that is to be included. -/
theorem follows_including (opened : Nat) (i : Inclusion) :
    Follows (including env.strict opened i) (including env.recovering opened i) := by
  refine (follows_enters env i).bind fun enters => ?_
  cases enters with
  | true => exact follows_reading env opened i
  | false => exact follows_pure none

end Context

end Preproc
