import Preproc.Preprocessor.Run
import Preproc.Proofs.Preprocessor.Recovery

/-!
# Runs with and without recovery

A run that does not recover is a run that does, cut off at the first problem that it would have to
recover from: until then the two take the same steps, and there it fails with that problem.

## Key results

- `parallel_step`: a step with recovery and one without compare as their computations do
- `cut_runFrom`: so do the runs
- `strict_run_cutOff`: the run without recovery is the other one, cut off at the first problem
-/

namespace Preproc

namespace Preprocessor

/-- The same run, but without recovery. -/
def strict (p : Preprocessor) : Preprocessor :=
  { p with env := p.env.strict }

/-- The same run, but with recovery. -/
def recovering (p : Preprocessor) : Preprocessor :=
  { p with env := p.env.recovering }

end Preprocessor

namespace Step

/-- The state that a step leads to. -/
def state : Step → Preprocessor
  | more q _ | done q | failed _ q => q

/-- What the run fails with at a step. -/
def failure? : Step → Option Failure
  | failed cause _ => some cause
  | _ => none

/-- The same step, with a change to the state that it leads to. -/
def map (f : Preprocessor → Preprocessor) : Step → Step
  | more q out => more (f q) out
  | done q => done (f q)
  | failed cause q => failed cause (f q)

end Step

namespace Preprocessor

open ContextM (Follows)

/-! ## Steps -/

/-- How two steps from `p` compare, one without and one with recovery. -/
def Parallel (p : Preprocessor) (s r : Step) : Prop :=
  Splits p.context.diagnostics (∃ t : Step, s = t.map strict ∧ r = t.map recovering) s.failure?
    s.state.context.diagnostics r.state.context.diagnostics

/-- Steps are parallel that lead to the same and report nothing. -/
private theorem parallel_map {p : Preprocessor} (t : Step)
    (h : t.state.context.diagnostics = p.context.diagnostics) :
    Parallel p (t.map strict) (t.map recovering) := by
  have hstrict : (t.map strict).state.context = t.state.context := by
    cases t <;> rfl
  have hrecovering : (t.map recovering).state.context = t.state.context := by
    cases t <;> rfl
  unfold Parallel
  rw [hstrict, hrecovering, h]
  exact .together ⟨t, rfl, rfl⟩ (.refl _) rfl

/-- Actions that go together until a problem lead to steps that are parallel, if what is done next
is. -/
private theorem parallel_doing {α : Type} {p : Preprocessor} {x y : ContextM α}
    {next next' : α → Context → Step} (hxy : Follows x y)
    (hnext : ∀ a c, Parallel { p with context := c } (next a c) (next' a c)) :
    Parallel p (p.strict.doing x next) (p.recovering.doing y next') := by
  refine (hxy p.context).sequel ?_ ?_ ?_
  · -- The actions agree, so the same is done next, or both fail.
    intro hagree
    cases hx : x p.context with
    | ok a c =>
      rw [doing_of_ok (p := p.strict) hx, doing_of_ok (p := p.recovering) (hagree.symm.trans hx)]
      exact hnext a c
    | error e c =>
      rw [doing_of_error (p := p.strict) hx,
        doing_of_error (p := p.recovering) (hagree.symm.trans hx)]
      exact parallel_map (p := { p with context := c }) (.failed e { p with context := c }) rfl
  · -- One action has failed, and its step with it.
    intro hfailed
    cases hx : x p.context with
    | ok a c =>
      rw [hx] at hfailed
      cases hfailed
    | error e c =>
      rw [doing_of_error (p := p.strict) hx]
      exact ⟨rfl, rfl⟩
  · cases hy : y p.context with
    | ok a c =>
      rw [doing_of_ok (p := p.recovering) hy]
      exact (hnext a c).grows
    | error e c =>
      rw [doing_of_error (p := p.recovering) hy]
      exact List.prefix_refl _

/-- Opening a file is parallel. -/
private theorem parallel_openFile (p : Preprocessor) (name : String) (text : List Char)
    (files : List OpenFile) (stage : Stage) : Parallel p (p.strict.openFile name text files stage)
      (p.recovering.openFile name text files stage) :=
  parallel_doing (Context.follows_keep _) fun f c =>
    parallel_map (.more { p with context := c, files := f :: files, stage } []) rfl

/-- Including a file is parallel. -/
private theorem parallel_includeFile (p : Preprocessor) (i : Inclusion) (files : List OpenFile)
    (stage : Stage) :
    Parallel p (p.strict.includeFile i files stage) (p.recovering.includeFile i files stage) := by
  rw [includeFile_eq, includeFile_eq]
  refine parallel_doing (p := { p with files, stage })
    (Context.follows_including p.env files.length i) fun text c => ?_
  cases text with
  -- The file is passed over, or opened by both.
  | none => exact parallel_map (.more { p with context := c, files, stage } []) rfl
  | some text =>
    exact parallel_map
      (.more (({ p with context := c, files, stage } : Preprocessor).enter i.path (some text)) [])
      rfl

/-- What is done before the main file is parallel. -/
private theorem parallel_stepForced (p : Preprocessor) (todo : List Path) (file : String)
    (text : List Char) :
    Parallel p (p.strict.stepForced todo file text) (p.recovering.stepForced todo file text) := by
  cases todo with
  | nil => exact parallel_openFile p file text [] .main
  | cons header rest =>
    simp only [stepForced]
    refine parallel_doing (Context.follows_findHeader p.env file _) fun found c => ?_
    cases found with
    | some path => exact parallel_includeFile { p with context := c } _ [] _
    -- The header is missing, where the strict one ends.
    | none =>
      exact parallel_doing (p := { p with context := c })
        (Context.follows_missingHeader p.env rfl _) fun _ c' =>
          parallel_map (.more { p with context := c', stage := .forced rest file text } []) rfl

/-- Expanding what was collected is parallel. -/
private theorem parallel_flush (p : Preprocessor) (f : OpenFile) (lines : List (Noted (List Token)))
    (files : List OpenFile) :
    Parallel p (p.strict.flush f lines files) (p.recovering.flush f lines files) :=
  parallel_doing (Context.follows_expand p.env false _) fun out c =>
    parallel_map
      (.more { p with context := c, files := { f with lines, pending := [] } :: files } out) rfl

/-- Closing a file is parallel. -/
private theorem parallel_close (p : Preprocessor) (f : OpenFile) (files : List OpenFile) :
    Parallel p (p.strict.close f files) (p.recovering.close f files) := by
  have hstage : p.strict.stage = p.stage ∧ p.recovering.stage = p.stage := ⟨rfl, rfl⟩
  refine parallel_doing (p := { p with files })
    ((Context.follows_keep _).bind fun _ => Context.follows_closeGroups p.env f.name _ _)
    fun _ c => ?_
  rw [hstage.1, hstage.2]
  -- The last file is the main one, or another file goes on.
  split
  · exact parallel_map (.more { p with context := c, files := [], stage := .ended } [f.eof]) rfl
  · rename_i rest _ _ _
    exact parallel_map (.more { p with context := c, files := rest } []) rfl

/-- Taking a line is parallel. -/
private theorem parallel_takeLine (p : Preprocessor) (f : OpenFile) (line : Noted (List Token))
    (lines : List (Noted (List Token))) (files : List OpenFile) :
    Parallel p (p.strict.takeLine f line lines files)
      (p.recovering.takeLine f line lines files) := by
  refine parallel_doing (Context.follows_keep line) fun ts c => ?_
  simp only
  split
  · split
    · -- A directive without text before it is carried out, which may open a file.
      refine parallel_doing (p := { p with context := c })
        (Context.follows_directive p.env f.base ts) fun wanted c' => ?_
      cases wanted with
      | none =>
        exact parallel_map (.more { p with context := c', files := { f with lines } :: files } [])
          rfl
      | some i => exact parallel_includeFile { p with context := c' } i _ p.stage
    · -- The text before it comes first.
      exact parallel_flush { p with context := c } f _ files
  · exact parallel_map (.more
      { p with
        context := c
        files :=
          { f with
            lines
            pending := if c.conditionals.active then ts.reverse ++ f.pending else f.pending } ::
            files } []) rfl

/-- A step without recovery does what the same step does with recovery, unless it ends the run. -/
theorem parallel_step (p : Preprocessor) : Parallel p p.strict.step p.recovering.step := by
  -- The two states differ in their settings alone, so they take the same kind of step.
  have hfiles : p.strict.files = p.files ∧ p.recovering.files = p.files := ⟨rfl, rfl⟩
  have hstage : p.strict.stage = p.stage ∧ p.recovering.stage = p.stage := ⟨rfl, rfl⟩
  unfold step
  rw [hfiles.1, hfiles.2, hstage.1, hstage.2]
  cases p.files with
  | nil =>
    cases p.stage with
    | forced todo file text => exact parallel_stepForced p todo file text
    | idle => exact parallel_map (.done p) rfl
    | main => exact parallel_map (.done p) rfl
    | ended => exact parallel_map (.done p) rfl
  | cons f files =>
    simp only
    cases f.lines with
    | cons line lines => exact parallel_takeLine p f line lines files
    | nil =>
      simp only
      split
      · exact parallel_close p f files
      · exact parallel_flush p f [] files

/-! ## Runs -/

/-- A run goes on from the state that its first step leads to. -/
theorem runFrom_of_more {p q : Preprocessor} {ts : List Token} (h : p.step = .more q ts)
    (j : Joiner) (out : List Token) :
    p.runFrom j out = q.runFrom (j.pushAll out ts).2 (j.pushAll out ts).1 := by
  rw [runFrom]
  split <;> simp_all

/-- A run that is complete settles what is held back. -/
theorem runFrom_of_done {p q : Preprocessor} (h : p.step = .done q) (j : Joiner)
    (out : List Token) : p.runFrom j out = ⟨out.reverse ++ j.flush, none, q⟩ := by
  rw [runFrom]
  split <;> simp_all

/-- A run that fails gives the tokens that were settled before. -/
theorem runFrom_of_failed {p q : Preprocessor} {e : Failure} (h : p.step = .failed e q)
    (j : Joiner) (out : List Token) : p.runFrom j out = ⟨out.reverse, some e, q⟩ := by
  rw [runFrom]
  split <;> simp_all

/-- Tokens that are settled stay settled. -/
private theorem suffix_pushAll (j : Joiner) (out ts : List Token) :
    out <:+ (j.pushAll out ts).1 := by
  induction ts generalizing j out with
  | nil => exact List.suffix_refl out
  | cons t ts ih => exact (List.suffix_append _ out).trans (ih _ _)

/-- Tokens that are settled are given. -/
private theorem tokens_runFrom (p : Preprocessor) (j : Joiner) (out : List Token) :
    out.reverse <+: (p.runFrom j out).tokens := by
  induction p using wellFounded_below.induction generalizing j out with
  | _ p ih =>
    cases hstep : p.step with
    -- The tokens of this step are put behind those before.
    | more q ts =>
      rw [runFrom_of_more hstep]
      exact (List.reverse_prefix.2 (suffix_pushAll j out ts)).trans
        (ih q (below_of_step hstep) _ _)
    | done q =>
      rw [runFrom_of_done hstep]
      exact List.prefix_append _ _
    | failed e q =>
      have hrun := runFrom_of_failed hstep j out
      exact hrun ▸ List.prefix_refl out.reverse

/-- A run that recovers keeps all that is reported. -/
private theorem diagnostics_runFrom {p : Preprocessor} (hp : p.env = p.env.recovering) (j : Joiner)
    (out : List Token) :
    p.step.state.context.diagnostics <+: (p.runFrom j out).last.context.diagnostics := by
  induction p using wellFounded_below.induction generalizing j out with
  | _ p ih =>
    cases hstep : p.step with
    | more q ts =>
      rw [runFrom_of_more hstep]
      have hbelow := below_of_step hstep
      have hq : q.env = q.env.recovering := by
        rw [hbelow.1]
        exact hp
      -- A step does not change the settings, so `q` recovers, too.
      have hsame : q.recovering = q := by
        unfold recovering
        rw [← hq]
      have hgrows := (parallel_step q).grows
      rw [hsame] at hgrows
      exact hgrows.trans (ih q hbelow hq _ _)
    | done q =>
      rw [runFrom_of_done hstep]
      exact List.prefix_refl _
    | failed e q =>
      rw [runFrom_of_failed hstep]
      exact List.prefix_refl _

/-- How two runs compare, one without and one with recovery, if the problems `before` had been
reported at their beginning. -/
structure Cut (before : List Diagnostic) (s r : Finished) : Prop where
  splits : Splits before
    (s.tokens = r.tokens ∧ s.failure = r.failure ∧ s.last.context = r.last.context) s.failure
    s.last.context.diagnostics r.last.context.diagnostics
  tokens : s.tokens <+: r.tokens

/-- From any state on, the run without recovery is the other one up to the first problem that it
would have to recover from. -/
theorem cut_runFrom (p : Preprocessor) (j : Joiner) (out : List Token) :
    Cut p.context.diagnostics (p.strict.runFrom j out) (p.recovering.runFrom j out) := by
  generalize hr : p.recovering = r
  induction r using wellFounded_below.induction generalizing p j out with
  | _ r ih =>
    subst hr
    -- The induction is on the run with recovery, which is the one that goes on.
    cases parallel_step p with
    | together hagree hquiet _ =>
      obtain ⟨t, hs, hr⟩ := hagree
      rw [hs] at hquiet
      cases t with
      | more q ts =>
        rw [runFrom_of_more hs, runFrom_of_more hr]
        obtain ⟨hsplits, htokens⟩ := ih q.recovering (below_of_step hr) q _ _ rfl
        exact ⟨hsplits.after hquiet, htokens⟩
      | done q =>
        rw [runFrom_of_done hs, runFrom_of_done hr]
        exact ⟨.together ⟨rfl, rfl, rfl⟩ hquiet rfl, List.prefix_refl _⟩
      | failed e q =>
        rw [runFrom_of_failed hs, runFrom_of_failed hr]
        exact ⟨.together ⟨rfl, rfl, rfl⟩ hquiet rfl, List.prefix_refl _⟩
    | apart hfailure hends hreported =>
      -- The run without recovery ends here; the other one may go on, but takes nothing back.
      cases hs : p.strict.step with
      | more q ts =>
        rw [hs] at hfailure
        cases hfailure
      | done q =>
        rw [hs] at hfailure
        cases hfailure
      | failed e q =>
        rw [hs] at hfailure hends hreported
        rw [runFrom_of_failed hs]
        exact ⟨.apart hfailure hends (hreported.trans (diagnostics_runFrom rfl j out)),
          tokens_runFrom _ j out⟩

/-! ## Runs from the beginning -/

private theorem cut_refused (p : Preprocessor) (e : Failure) :
    Cut p.context.diagnostics ⟨[], some e, p.strict⟩ ⟨[], some e, p.recovering⟩ :=
  ⟨.together ⟨rfl, rfl, rfl⟩ (.refl _) rfl, List.prefix_refl _⟩

/-- On a text, the run without recovery is the other one up to the first such problem. -/
private theorem cut_runText (p : Preprocessor) (file : String) (text : List Char) :
    Cut p.context.diagnostics (p.strict.runText file text) (p.recovering.runText file text) := by
  have hstage : p.strict.stage = p.stage ∧ p.recovering.stage = p.stage := ⟨rfl, rfl⟩
  unfold runText start
  rw [hstage.1, hstage.2]
  cases p.stage with
  -- Only an idle preprocessor starts a run.
  | idle =>
    exact cut_runFrom { p with stage := .forced p.env.config.forceIncludes file text } {} []
  | forced _ _ _ => exact cut_refused p _
  | main => exact cut_refused p _
  | ended => exact cut_refused p _

/-- On a file, the run without recovery is the other one up to the first such problem. -/
private theorem cut_runFile (p : Preprocessor) (path : String) :
    Cut p.context.diagnostics (p.strict.runFile path) (p.recovering.runFile path) := by
  have hread : p.strict.env.disk.read p.strict.env.config.charset path =
      p.recovering.env.disk.read p.recovering.env.config.charset path := rfl
  unfold runFile
  rw [hread]
  split
  · exact cut_refused p _
  · exact cut_runText p path _

/-- Nothing has been reported when a run starts. -/
private theorem diagnostics_start (config : Config) (now : Clock) :
    (Context.start config now).diagnostics = [] := by
  unfold Context.start
  refine List.foldlRecOn (motive := fun c : Context => c.diagnostics = []) _ _ rfl ?_
  intro c hc definition _
  simp only
  split
  · exact hc
  · exact hc

end Preprocessor

/-- The problems that a run has reported. -/
def Finished.diagnostics (f : Finished) : List Diagnostic :=
  f.last.context.diagnostics

/-- The run `s` is the run `r` cut off at the first problem that ends a run without recovery, or the
same as `r` if there is none. -/
def CutOff (s r : Finished) : Prop :=
  match r.diagnostics.find? (·.strictFailure?.isSome) with
  | none => s.tokens = r.tokens ∧ s.failure = r.failure ∧ s.last.context = r.last.context
  | some d =>
    s.failure = d.strictFailure? ∧
      s.diagnostics = r.diagnostics.takeWhile (·.strictFailure?.isNone) ++ [d] ∧
      s.tokens <+: r.tokens

/-- A run that splits from the other at a problem is cut off there. -/
private theorem Preprocessor.Cut.cutOff {s r : Finished} (h : Cut [] s r) : CutOff s r := by
  obtain ⟨hsplits, htokens⟩ := h
  unfold CutOff
  cases hsplits with
  | together hagree hquiet hsame =>
    obtain ⟨ds, hds, heq⟩ := hquiet
    have hr : r.diagnostics = ds := hsame.symm.trans heq
    have hfind : r.diagnostics.find? (·.strictFailure?.isSome) = none := by
      rw [hr, List.find?_eq_none]
      intro d hd
      rw [hds d hd]
      simp
    rw [hfind]
    exact hagree
  | apart hfailure hends hreported =>
    obtain ⟨ds, d, hds, hd, heq⟩ := hends
    obtain ⟨rest, hrest⟩ := hreported
    -- The problem is the first of its kind, and others may follow.
    have hr : r.diagnostics = ds ++ d :: rest := by
      show r.last.context.diagnostics = _
      rw [← hrest, heq]
      simp
    have hfind : r.diagnostics.find? (·.strictFailure?.isSome) = some d := by
      rw [hr, List.find?_append, List.find?_eq_none.2 fun d' hd' => by simp [hds d' hd']]
      simp [hd]
    have hquiet : r.diagnostics.takeWhile (·.strictFailure?.isNone) = ds := by
      rw [hr, List.takeWhile_append_of_pos fun d' hd' => by simp [hds d' hd']]
      simp [hd]
    rw [hfind]
    refine ⟨hfailure.trans hd.symm, ?_, htokens⟩
    rw [hquiet]
    exact heq

/-- A run without recovery, on any text and any file, is the run with recovery and otherwise the
same settings, cut off at the first problem that the latter recovers from. -/
theorem strict_run_cutOff (config : Config) (disk : Disk) (now : Clock) (nesting : Nat) :
    let strict := Preprocessor.ofConfig { config with errorRecovery := false } disk now nesting
    let recovering := Preprocessor.ofConfig { config with errorRecovery := true } disk now nesting
    (∀ file text, CutOff (strict.runText file text) (recovering.runText file text)) ∧
      ∀ path, CutOff (strict.runFile path) (recovering.runFile path) := by
  intro strict recovering
  -- Nothing has been reported at the start, so all that a run reports is its own.
  have hstart : (Preprocessor.ofConfig config disk now nesting).context.diagnostics = [] :=
    Preprocessor.diagnostics_start config now
  constructor
  · intro file text
    have hcut := (Preprocessor.ofConfig config disk now nesting).cut_runText file text
    rw [hstart] at hcut
    exact hcut.cutOff
  · intro path
    have hcut := (Preprocessor.ofConfig config disk now nesting).cut_runFile path
    rw [hstart] at hcut
    exact hcut.cutOff

end Preproc
