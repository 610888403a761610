import Preproc.Proofs.Preprocessor.Steps

/-!
# What a directive changes

Most of what a run does only looks at the input: it expands tokens, tests conditions and looks for
headers. That leaves the definitions, the open groups and the files to be included once alone
(`Context.Alike`). What a directive does to the open groups is then said by what it does to the
innermost of them: it opens one, or changes or closes one that was opened in its own file.

## Key results

- `Composes.inclusion?`: what holds of the parts of looking for a file holds of looking for it
- `LooksOnly.bind`: looking twice is looking
- `looksOnly_expand`, `looksOnly_test`, `looksOnly_inclusion?`: what only looks
- `guards_directive`: a directive leaves the groups that were open when its file was opened, and all
  groups if it includes a file
- `groups_of_closeGroups`: the end of a file closes the groups that were opened in it
-/

namespace Preproc

namespace Context

/-! ## Properties of sequences -/

/-- A property of actions that a sequence has if its parts have it. -/
structure Composes (P : (α : Type) → ContextM α → Prop) : Prop where
  pure {α : Type} (a : α) : P α (pure a)
  throw {α : Type} (e : Failure) : P α (throw e)
  bind {α β : Type} {x : ContextM α} {f : α → ContextM β} (hx : P α x) (hf : ∀ a, P β (f a)) :
    P β (x >>= f)

namespace Composes

variable {P : (α : Type) → ContextM α → Prop} {env : Environment}

/-- What holds of a note and a report holds of saying that a header is missing. -/
theorem missingHeader (h : Composes P) {d : Diagnostic} {spelling : String}
    (hnote : P _ (note (.missingHeader d.file d.line d.problem.message spelling)))
    (hreport : P _ (report d)) : P _ (missingHeader env d spelling) := by
  refine h.bind hnote fun _ => h.bind hreport fun _ => ?_
  split
  · exact h.throw _
  · exact h.pure _

/-- What holds of expanding, noting, looking for a header and missing it holds of looking for the
file of a directive. -/
theorem inclusion? (h : Composes P) {d : DirectiveLine} (hexpand : ∀ ts, P _ (expand env false ts))
    (hnote : ∀ n, P _ (note n)) (hfind : ∀ name, P _ (findHeader env d.file name))
    (hmissing : ∀ name,
      P _ (Context.missingHeader env ⟨d.file, d.line, .headerNotFound name⟩ d.spelling))
    (target : IncludeTarget) (once : Bool) : P _ (inclusion? env d target once) := by
  -- A name that has been read is looked for in the same way as one that was written.
  have hheader : ∀ name, P _ (Context.inclusion? env d (.header name) once) := by
    intro name
    unfold Context.inclusion?
    simp only [pure_bind]
    refine h.bind (hfind name) fun found => ?_
    cases found with
    | some path => exact h.pure _
    | none => exact h.bind (hmissing name) fun _ => h.pure _
  cases target with
  | header name => exact hheader name
  | computed ts =>
    refine h.bind (hexpand ts) fun out => ?_
    cases readHeaderName out with
    | ok read => exact hheader read.1
    | error e => exact h.bind (hnote _) fun _ => h.pure none

/-- What holds of the reports on a file that is refused holds of reading it. -/
theorem reading (h : Composes P) {opened : Nat} {i : Inclusion}
    (hunreadable : ∀ cause, P _ (remark ⟨i.file, i.line, .unreadable i.path cause⟩))
    (htooDeep : P _ (tooDeep env i)) : P _ (reading env opened i) := by
  unfold Context.reading
  -- The file is read, cannot be read, or is nested too deeply.
  split
  · unfold readIncluded
    split
    · exact h.pure _
    · split
      · exact h.bind (hunreadable _) fun _ => h.pure _
      · exact h.throw _
  · exact h.bind htooDeep fun _ => h.pure _

end Composes

/-! ## Looking -/

/-- Definitions, open groups and files to be included once are the same. -/
structure Alike (c c' : Context) : Prop where
  macros : c'.macros.macros = c.macros.macros
  conditionals : c'.conditionals = c.conditionals
  once : c'.once = c.once

theorem Alike.refl (c : Context) : c.Alike c :=
  ⟨rfl, rfl, rfl⟩

theorem Alike.trans {c c₁ c₂ : Context} (h : c.Alike c₁) (h' : c₁.Alike c₂) : c.Alike c₂ :=
  ⟨h'.macros.trans h.macros, h'.conditionals.trans h.conditionals, h'.once.trans h.once⟩

/-- An action that leaves definitions, open groups and files to be included once alone. -/
def LooksOnly {α : Type} (act : ContextM α) : Prop :=
  ∀ ⦃c : Context⦄ ⦃a : α⦄ ⦃c' : Context⦄, act c = .ok a c' → c.Alike c'

/-- Looking twice is looking. -/
theorem LooksOnly.bind {α β : Type} {x : ContextM α} {f : α → ContextM β} (hx : LooksOnly x)
    (hf : ∀ a, LooksOnly (f a)) : LooksOnly (x >>= f) := by
  intro c b c' h
  obtain ⟨a, c₁, h₁, h₂⟩ := ContextM.bind_eq_ok_iff.1 h
  exact (hx h₁).trans (hf a h₂)

/-- Giving a result is looking. -/
theorem looksOnly_pure {α : Type} (a : α) : LooksOnly (pure a : ContextM α) := by
  intro c b c' h
  cases h
  exact .refl c

/-- A failure leaves nothing to be compared. -/
theorem looksOnly_throw {α : Type} (e : Failure) : LooksOnly (throw e : ContextM α) := by
  intro c b c' h
  cases h

/-- Asking what is known is looking. -/
theorem looksOnly_get : LooksOnly (get : ContextM Context) := by
  intro c b c' h
  cases h
  exact .refl c

/-- Taking a result with its notes is looking. -/
theorem looksOnly_keep {α : Type} (x : Noted α) : LooksOnly (keep x) := by
  intro c b c' h
  cases h
  exact ⟨rfl, rfl, rfl⟩

/-- A note is looking. -/
theorem looksOnly_note (n : Note) : LooksOnly (note n) := by
  intro c b c' h
  cases h
  exact ⟨rfl, rfl, rfl⟩

/-- A report is looking. -/
private theorem looksOnly_report (d : Diagnostic) : LooksOnly (report d) := by
  intro c b c' h
  cases h
  exact ⟨rfl, rfl, rfl⟩

private theorem looksOnly_remark (d : Diagnostic) : LooksOnly (remark d) :=
  (looksOnly_note _).bind fun _ => looksOnly_report d

/-- A report on groups that do not match is looking. -/
theorem looksOnly_unbalanced (env : Environment) (d : Diagnostic) :
    LooksOnly (unbalanced env d) := by
  refine (looksOnly_remark d).bind fun _ => ?_
  split
  · exact looksOnly_throw _
  · exact looksOnly_pure _

private theorem composes_looksOnly : Composes fun _ act => LooksOnly act :=
  ⟨looksOnly_pure, looksOnly_throw, LooksOnly.bind⟩

theorem looksOnly_missingHeader (env : Environment) (d : Diagnostic) (spelling : String) :
    LooksOnly (missingHeader env d spelling) :=
  composes_looksOnly.missingHeader (looksOnly_note _) (looksOnly_report d)

/-- What an expansion starts from. -/
def expansion (env : Environment) (condition : Bool) (c : Context) : Expansion :=
  { macros := c.macros
    maxDepth := env.config.maxExpansionDepth
    maxTokens := env.config.maxExpansionTokens
    condition
    nesting := env.nesting }

/-- What is known after an expansion that has come to `x`. -/
def afterExpansion (c : Context) (x : Expander) : Context :=
  { c with macros := { c.macros with count := x.count }, notes := x.notes }

/-- The problems that are reported if the expansion of `ts` fails: one if a limit is exceeded, and
none otherwise. -/
def expansionProblems (ts : List Token) (cause : ExpansionError) : List Diagnostic :=
  if cause.isReported then
    [⟨ts.head?.elim "" (·.file), ts.head?.elim 0 (·.line), .expansion cause⟩]
  else []

/-- Only a limit that is exceeded is reported. -/
theorem of_mem_expansionProblems {ts : List Token} {cause : ExpansionError} {d : Diagnostic}
    (h : d ∈ expansionProblems ts cause) :
    cause.isReported = true ∧ d.problem = .expansion cause := by
  unfold expansionProblems at h
  split at h
  · rename_i hreported
    rw [List.mem_singleton.1 h]
    exact ⟨hreported, rfl⟩
  · cases h

/-- What an expansion gives and leaves behind. -/
theorem expand_apply (env : Environment) (condition : Bool) (ts : List Token) (c : Context) :
    expand env condition ts c =
      match ({ count := c.macros.count, notes := c.notes } : Expander).expand
          (expansion env condition c) ts with
      | .ok out x => .ok out (c.afterExpansion x)
      | .error cause x =>
        .error (.expansion cause)
          { c.afterExpansion x with
            diagnostics := c.diagnostics ++ expansionProblems ts cause } := by
  unfold expand
  rw [ContextM.get_bind]
  unfold expansion
  simp only
  cases ({ count := c.macros.count, notes := c.notes } : Expander).expand
    { macros := c.macros, maxDepth := env.config.maxExpansionDepth,
      maxTokens := env.config.maxExpansionTokens, condition, nesting := env.nesting } ts with
  | ok out x => rfl
  | error cause x =>
    -- Nothing is added where nothing is reported.
    cases hreported : cause.isReported with
    | true =>
      simp only [expansionProblems, hreported, if_true]
      rfl
    | false =>
      simp only [expansionProblems, hreported, Bool.false_eq_true, if_false, List.append_nil]
      rfl

/-- Expansion is looking. -/
theorem looksOnly_expand (env : Environment) (condition : Bool) (ts : List Token) :
    LooksOnly (expand env condition ts) := by
  intro c out c' h
  rw [expand_apply] at h
  split at h
  · cases h
    exact ⟨rfl, rfl, rfl⟩
  · cases h

private theorem alike_lookForHeader (env : Environment) (file : String) (name : HeaderName)
    (c : Context) : c.Alike (lookForHeader env file name c).2 :=
  ⟨rfl, rfl, rfl⟩

/-- Finding a header is looking. -/
theorem looksOnly_findHeader (env : Environment) (file : String) (name : HeaderName) :
    LooksOnly (findHeader env file name) := by
  intro c a c' h
  cases h
  exact alike_lookForHeader env file name c

/-- What every search for a header keeps true stays true while the questions of a condition are
answered. -/
theorem answerQueries_induction {env : Environment} {file : String} {P : Context → Prop}
    (hlook : ∀ name c, P c → P (lookForHeader env file name c).2) (clauses : List Clause)
    {c : Context} (hc : P c) : P (answerQueries (answer env file) c clauses).2 := by
  induction clauses generalizing c with
  | nil => exact hc
  | cons clause rest ih =>
    cases clause with
    | token t => exact ih hc
    | query site q =>
      -- Only one kind of question is answered by a search.
      cases q with
      | defined name => exact ih hc
      | header name => exact ih (hlook name c hc)

/-- Answering all questions of a condition leaves the context alike. -/
private theorem alike_answerQueries (env : Environment) (file : String) (c : Context)
    (clauses : List Clause) : c.Alike (answerQueries (answer env file) c clauses).2 :=
  answerQueries_induction (P := c.Alike)
    (fun name c₁ h => h.trans (alike_lookForHeader env file name c₁)) clauses (.refl c)

/-- Testing a condition is looking. -/
theorem looksOnly_test (env : Environment) (file : String) (condition : List Token) :
    LooksOnly (test env file condition) := by
  refine (looksOnly_keep _).bind fun clauses => ?_
  intro c b c' h
  rw [ContextM.get_bind] at h
  have hanswers := alike_answerQueries env file c clauses
  obtain ⟨_, c₁, hset, h⟩ := ContextM.bind_eq_ok_iff.1 h
  cases hset
  obtain ⟨ts, c₂, hexpand, h⟩ := ContextM.bind_eq_ok_iff.1 h
  obtain ⟨answer, c₃, hkeep, h⟩ := ContextM.bind_eq_ok_iff.1 h
  -- The answers, the expansion and the evaluation, one after the other.
  have halike := (hanswers.trans (looksOnly_expand _ _ _ hexpand)).trans (looksOnly_keep _ hkeep)
  cases answer with
  | ok b => exact halike.trans (looksOnly_pure b h)
  | error e => exact halike.trans (looksOnly_throw _ h)

theorem looksOnly_nameTest (holds : (String → Bool) → Option Token → Bool) (name : Option Token) :
    LooksOnly (nameTest holds name) :=
  looksOnly_get.bind fun _ => looksOnly_pure _

/-- Looking for the file of a directive is looking. -/
theorem looksOnly_inclusion? (env : Environment) (d : DirectiveLine) (target : IncludeTarget)
    (once : Bool) : LooksOnly (inclusion? env d target once) :=
  composes_looksOnly.inclusion? (looksOnly_expand env false) looksOnly_note
    (looksOnly_findHeader env d.file) (fun _ => looksOnly_missingHeader _ _ _) target once

theorem looksOnly_reading (env : Environment) (opened : Nat) (i : Inclusion) :
    LooksOnly (reading env opened i) :=
  composes_looksOnly.reading (fun _ => looksOnly_remark _) (looksOnly_remark _)

/-- Including a file may let it not be included again, but leaves the open groups. -/
theorem conditionals_of_including {env : Environment} {opened : Nat} {i : Inclusion}
    {c c' : Context} {content : Option (List Char)}
    (h : including env opened i c = .ok content c') : c'.conditionals = c.conditionals := by
  obtain ⟨b, c₁, henters, h⟩ := ContextM.bind_eq_ok_iff.1 h
  -- Marking the file to be included once leaves the groups.
  have hsame : c₁.conditionals = c.conditionals := by
    unfold enters at henters
    rw [ContextM.get_bind] at henters
    split at henters
    · cases henters
      rfl
    · cases honce : i.once with
      | true =>
        rw [honce] at henters
        cases henters
        rfl
      | false =>
        rw [honce] at henters
        cases henters
        rfl
  cases b with
  | true => exact (looksOnly_reading env opened i h).conditionals.trans hsame
  | false =>
    cases h
    exact hsame

/-! ## Changing the open groups -/

/-- The groups that were open while no more than `base` were are open as they were. -/
def Guards (base : Nat) (c c' : Context) : Prop :=
  ∀ outer : List Group, outer.length ≤ base → outer <:+ c.conditionals.groups →
    outer <:+ c'.conditionals.groups

/-- Groups that are left twice are left. -/
theorem Guards.trans {base : Nat} {c c₁ c₂ : Context} (h : Guards base c c₁)
    (h' : Guards base c₁ c₂) : Guards base c c₂ := by
  intro outer hlen hsuffix
  exact h' outer hlen (h outer hlen hsuffix)

/-- Looking leaves all groups. -/
private theorem Alike.guards {c c' : Context} (h : c.Alike c') (base : Nat) : Guards base c c' := by
  intro outer _ hsuffix
  rw [h.conditionals]
  exact hsuffix

/-- A condition that is tested only if `tested` holds is looked at, too. -/
theorem LooksOnly.ite {condition : ContextM Bool} (hlooks : LooksOnly condition) (tested : Bool) :
    LooksOnly (if tested then condition else pure false) := by
  cases tested with
  | true => exact hlooks
  | false => exact looksOnly_pure false

/-- Opening a group tests its condition, if it matters, and then opens the group. -/
theorem openGroup_eq (condition : ContextM Bool) (c : Context) :
    openGroup condition c =
      ((if c.conditionals.opensTested then condition else pure false) >>= fun holds =>
        modify fun c => { c with conditionals := c.conditionals.openGroup holds }) c := by
  unfold openGroup
  rw [ContextM.get_bind]
  cases c.conditionals.opensTested <;> rfl

/-- Another branch tests its condition, if it matters, and then changes the group. -/
theorem elifBranch_eq (condition : ContextM Bool) (c : Context) :
    elifBranch condition c =
      ((if c.conditionals.elifTested then condition else pure false) >>= fun holds => do
        setConditionals ((← get).conditionals.elif? holds)) c := by
  unfold elifBranch
  rw [ContextM.get_bind]
  cases c.conditionals.elifTested <;> rfl

/-- Opening a group leaves those that are open. -/
private theorem guards_openGroup {condition : ContextM Bool} (hlooks : LooksOnly condition)
    {base : Nat} {c c' : Context} (h : openGroup condition c = .ok () c') : Guards base c c' := by
  rw [openGroup_eq] at h
  obtain ⟨holds, c₁, htest, h⟩ := ContextM.bind_eq_ok_iff.1 h
  cases h
  refine ((hlooks.ite _ htest).guards base).trans ?_
  intro outer _ hsuffix
  exact hsuffix.trans (List.suffix_cons _ _)

/-- An action that may change or close the innermost group, and leaves the others. -/
def InnermostOnly (act : ContextM Unit) : Prop :=
  ∀ ⦃c c' : Context⦄, act c = .ok () c' →
    c.conditionals.groups.tail <:+ c'.conditionals.groups

/-- A change to the groups that leaves all but the innermost. -/
private theorem innermostOnly_setConditionals (next : Conditionals → Option (Noted Conditionals))
    (hnext : ∀ x y, next x = some y → x.groups.tail <:+ y.value.groups) :
    InnermostOnly (do setConditionals (next (← get).conditionals)) := by
  intro c c' h
  rw [ContextM.get_bind] at h
  cases hy : next c.conditionals with
  -- Without a group to change the groups stay.
  | none =>
    rw [hy] at h
    cases h
    exact List.tail_suffix _
  | some y =>
    rw [hy] at h
    cases h
    exact hnext _ _ hy

/-- Another branch changes the innermost group only. -/
theorem innermostOnly_elifBranch {condition : ContextM Bool} (hlooks : LooksOnly condition) :
    InnermostOnly (elifBranch condition) := by
  intro c c' h
  rw [elifBranch_eq] at h
  obtain ⟨holds, c₁, htest, h⟩ := ContextM.bind_eq_ok_iff.1 h
  -- Testing the condition leaves the groups.
  rw [← (hlooks.ite _ htest).conditionals]
  refine innermostOnly_setConditionals (·.elif? holds) (fun x y hxy => ?_) h
  unfold Conditionals.elif? at hxy
  split at hxy
  · cases hxy
  · cases hxy
    rename_i g gs hx
    rw [hx]
    exact List.suffix_cons _ _

/-- The last branch changes the innermost group only. -/
theorem innermostOnly_otherwise :
    InnermostOnly (do setConditionals (← get).conditionals.otherwise?) := by
  refine innermostOnly_setConditionals (·.otherwise?) fun x y hxy => ?_
  unfold Conditionals.otherwise? at hxy
  split at hxy
  · cases hxy
  · cases hxy
    rename_i g gs hx
    rw [hx]
    exact List.suffix_cons _ _

/-- The end of a group closes the innermost one only. -/
theorem innermostOnly_endif :
    InnermostOnly (do setConditionals ((← get).conditionals.endif?.map fun c => ⟨c, []⟩)) := by
  refine innermostOnly_setConditionals (·.endif?.map fun c => ⟨c, []⟩) fun x y hxy => ?_
  unfold Conditionals.endif? at hxy
  split at hxy
  · cases hxy
  · cases hxy
    rename_i g gs hx
    rw [hx]
    exact List.suffix_refl _

/-- A group is changed or closed only if it was opened in the file of the directive. -/
theorem guards_closesGroup {env : Environment} {base : Nat} {d : DirectiveLine}
    {act : ContextM Unit} (hact : InnermostOnly act) {c c' : Context} {r : Option Inclusion}
    (h : (do
      if ← closesGroup env base d then act
      pure none) c = .ok r c') : Guards base c c' ∧ r = none := by
  obtain ⟨b, c₁, hcloses, h⟩ := ContextM.bind_eq_ok_iff.1 h
  -- The group is there, or its absence is reported and nothing is done.
  have hcases : c.Alike c₁ ∧ (b = true → base < c₁.conditionals.depth) := by
    unfold closesGroup at hcloses
    rw [ContextM.get_bind] at hcloses
    split at hcloses
    · rename_i hdepth
      cases hcloses
      exact ⟨.refl _, fun _ => hdepth⟩
    · obtain ⟨_, c₂, hreport, hcloses⟩ := ContextM.bind_eq_ok_iff.1 hcloses
      cases hcloses
      exact ⟨looksOnly_unbalanced _ _ hreport, fun hb => nomatch hb⟩
  obtain ⟨halike, hdepth⟩ := hcases
  cases b with
  | false =>
    cases h
    exact ⟨halike.guards base, rfl⟩
  | true =>
    obtain ⟨_, c₂, hdone, h⟩ := ContextM.bind_eq_ok_iff.1 h
    cases h
    refine ⟨(halike.guards base).trans ?_, rfl⟩
    intro outer hlen hsuffix
    have hlt : base < c₁.conditionals.groups.length := hdepth rfl
    -- There is a group on top of those to be kept, so they are all in the tail.
    refine List.IsSuffix.trans ?_ (hact hdone)
    cases hgroups : c₁.conditionals.groups with
    | nil => simp [hgroups] at hlt
    | cons g gs =>
      rw [hgroups] at hsuffix hlt
      cases List.suffix_cons_iff.1 hsuffix with
      | inl heq =>
        rw [heq] at hlen
        omega
      | inr htail => exact htail

/-- A directive that opens a group leaves the open ones, and asks for no file. -/
theorem guards_opens {condition : ContextM Bool} (hlooks : LooksOnly condition) {base : Nat}
    {c c' : Context} {r : Option Inclusion}
    (h : (do
      openGroup condition
      pure none) c = .ok r c') : Guards base c c' ∧ r = none := by
  obtain ⟨_, c₁, hopen, h⟩ := ContextM.bind_eq_ok_iff.1 h
  cases h
  exact ⟨guards_openGroup hlooks hopen, rfl⟩

/-- A directive leaves the groups that were open when its file was opened, and all groups if it
includes a file. -/
private theorem guards_carryOut {env : Environment} {base : Nat} {d : DirectiveLine}
    {c c' : Context} {r : Option Inclusion} (h : carryOut env base d c = .ok r c') :
    Guards base c c' ∧ (r.isSome = true → c'.conditionals = c.conditionals) := by
  -- A directive that leaves the groups as they are.
  have hsame : c'.conditionals = c.conditionals →
      Guards base c c' ∧ (r.isSome = true → c'.conditionals = c.conditionals) := by
    intro heq
    refine ⟨?_, fun _ => heq⟩
    intro outer _ hsuffix
    rw [heq]
    exact hsuffix
  -- A directive that asks for no file.
  have hnone : Guards base c c' ∧ r = none →
      Guards base c c' ∧ (r.isSome = true → c'.conditionals = c.conditionals) := by
    rintro ⟨hguards, rfl⟩
    exact ⟨hguards, fun hsome => nomatch hsome⟩
  obtain ⟨tokens, directive⟩ := d
  cases directive with
  | define name params body =>
    cases h
    exact hsame rfl
  | undef name =>
    cases h
    exact hsame rfl
  | inclusion target once => exact hsame (looksOnly_inclusion? _ _ _ _ h).conditionals
  | pragma args =>
    apply hsame
    unfold carryOut at h
    simp only at h
    split at h
    · cases h
      rfl
    · cases h
      rfl
  | ifTrue condition => exact hnone (guards_opens (looksOnly_test _ _ _) h)
  | ifdef name => exact hnone (guards_opens (looksOnly_nameTest _ _) h)
  | ifndef name => exact hnone (guards_opens (looksOnly_nameTest _ _) h)
  | elifTrue condition =>
    exact hnone (guards_closesGroup (innermostOnly_elifBranch (looksOnly_test _ _ _)) h)
  | elifdef name =>
    exact hnone (guards_closesGroup (innermostOnly_elifBranch (looksOnly_nameTest _ _)) h)
  | elifndef name =>
    exact hnone (guards_closesGroup (innermostOnly_elifBranch (looksOnly_nameTest _ _)) h)
  | otherwise => exact hnone (guards_closesGroup innermostOnly_otherwise h)
  | endif => exact hnone (guards_closesGroup innermostOnly_endif h)
  | other =>
    cases h
    exact hsame rfl

/-- A line that starts with `#` leaves the groups that were open when its file was opened, and all
groups if it includes a file. -/
theorem guards_directive {env : Environment} {base : Nat} {line : List Token} {c c' : Context}
    {r : Option Inclusion} (h : directive env base line c = .ok r c') :
    Guards base c c' ∧ (r.isSome = true → c'.conditionals = c.conditionals) := by
  -- Where the context is only looked at, both parts hold.
  have hlooks : c.Alike c' →
      Guards base c c' ∧ (r.isSome = true → c'.conditionals = c.conditionals) :=
    fun halike => ⟨halike.guards base, fun _ => halike.conditionals⟩
  unfold directive at h
  rw [ContextM.get_bind] at h
  obtain ⟨parsed, c₁, hkeep, h⟩ := ContextM.bind_eq_ok_iff.1 h
  have halike := looksOnly_keep _ hkeep
  cases parsed with
  -- The line cannot be read, which is noted.
  | error e =>
    apply hlooks
    exact halike.trans (((looksOnly_note _).bind fun _ => looksOnly_pure _) h)
  | ok read =>
    obtain ⟨d, rest⟩ := read
    simp only at h
    split at h
    · apply hlooks
      exact halike.trans (looksOnly_pure _ h)
    · obtain ⟨hguards, hsome⟩ := guards_carryOut h
      refine ⟨(halike.guards base).trans hguards, ?_⟩
      intro hr
      rw [hsome hr, halike.conditionals]

/-- The groups that a file leaves open are closed, and no others. -/
theorem groups_of_closeGroups {env : Environment} {file : String} {line base : Nat} {c c' : Context}
    (h : closeGroups env file line base c = .ok () c') :
    c'.conditionals.groups =
      c.conditionals.groups.drop (c.conditionals.groups.length - base) := by
  unfold closeGroups at h
  rw [ContextM.get_bind] at h
  obtain ⟨_, c₁, hset, h⟩ := ContextM.bind_eq_ok_iff.1 h
  cases hset
  -- Reporting the groups that were cut off leaves the others.
  have halike : LooksOnly (if 0 < (c.conditionals.truncate base).1 then
      unbalanced env ⟨file, line, .unterminated (c.conditionals.truncate base).1⟩
      else pure ()) := by
    split
    · exact looksOnly_unbalanced _ _
    · exact looksOnly_pure _
  rw [(halike h).conditionals]
  rfl

end Context

end Preproc
