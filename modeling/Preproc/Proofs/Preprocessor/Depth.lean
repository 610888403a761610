import Preproc.Proofs.ForStd
import Preproc.Proofs.Preprocessor.Inclusions
import Preproc.Proofs.Preprocessor.Runs

/-!
# How deep files are nested, and that runs end

Files may include themselves and each other. What keeps a run finite is the limit on open files: a
file is opened only while fewer are open, and any other request is refused with one report and no
token. So the open files are never more than the limit, and since each of them has fewer lines left
with every step, the run ends, however the files refer to each other.

## Key results

- `length_files_le_of_advance`: a step does not exceed the limit
- `exists_runWithin`: from every state, the rest of a run takes only so many steps
- `run_ends_within_limit`: the two for every run, with what is done about a file that is refused
-/

namespace Preproc

/-! ## Limits -/

namespace Config

/-- A limit that is read is at least one, if the one that is used without it is. -/
private theorem readLimit_pos {values : List (String × Setting)} {name : String} {default n : Nat}
    (hdefault : 0 < default) (h : readLimit values name default = .ok n) : 0 < n := by
  unfold readLimit readSetting at h
  -- Without a setting the default is taken, and a setting has to be positive.
  split at h
  · cases h
    exact hdefault
  · simp only at h
    split at h
    · split at h
      · cases h
        omega
      · cases h
    · cases h

/-- Settings that can be read let at least one file be open. -/
private theorem maxIncludeDepth_pos {values : List (String × Setting)} {config : Config}
    (h : ofSettings values = .ok config) : 0 < config.maxIncludeDepth := by
  unfold ofSettings at h
  simp only at h
  split at h
  · cases h
  obtain ⟨charset, -, h⟩ := Except.of_bind_ok h
  obtain ⟨errorRecovery, -, h⟩ := Except.of_bind_ok h
  obtain ⟨includePaths, -, h⟩ := Except.of_bind_ok h
  obtain ⟨globalDefines, -, h⟩ := Except.of_bind_ok h
  obtain ⟨defines, -, h⟩ := Except.of_bind_ok h
  obtain ⟨forceIncludes, -, h⟩ := Except.of_bind_ok h
  obtain ⟨maxExpansionDepth, -, h⟩ := Except.of_bind_ok h
  obtain ⟨maxExpansionTokens, -, h⟩ := Except.of_bind_ok h
  -- Of all settings only the limit matters.
  obtain ⟨maxIncludeDepth, hlimit, h⟩ := Except.of_bind_ok h
  cases h
  exact readLimit_pos (by decide) hlimit

end Config

namespace Preprocessor

/-! ## Open files -/

/-- A file that has a content is opened. -/
private theorem length_files_enter (p : Preprocessor) (name : String)
    (content : Option (List Char)) :
    (p.enter name content).files.length = p.files.length + if content.isSome then 1 else 0 := by
  cases content with
  | none => rfl
  | some text => rfl

/-- A file that is included has room among those that are open. -/
private theorem length_files_le_of_including {env : Environment} {opened : Nat} {i : Inclusion}
    {c c' : Context} {content : Option (List Char)} {q : Preprocessor} {name : String}
    (hopened : q.files.length = opened) (hle : opened ≤ env.config.maxIncludeDepth)
    (h : Context.including env opened i c = .ok content c') :
    (q.enter name content).files.length ≤ env.config.maxIncludeDepth := by
  rw [length_files_enter, hopened]
  cases content with
  | none => exact hle
  | some text =>
    -- A file is only read while there is room.
    have hroom := (Context.of_including_some h).2.1
    simp only [Option.isSome_some, if_true]
    omega

/-- A step does not open more files than the limit. -/
theorem length_files_le_of_advance {p q : Preprocessor} {out : List Token}
    (hlimit : 0 < p.env.config.maxIncludeDepth)
    (hle : p.files.length ≤ p.env.config.maxIncludeDepth) (h : Advance p q out) :
    q.files.length ≤ p.env.config.maxIncludeDepth := by
  -- A step that changes the innermost file opens none.
  have htop : ∀ {f g : OpenFile} {files : List OpenFile}, p.files = f :: files →
      (g :: files).length ≤ p.env.config.maxIncludeDepth := by
    intro f g files hfiles
    rw [hfiles] at hle
    exact hle
  cases h with
  | main hfiles =>
    rw [length_files_enter]
    show p.files.length + 1 ≤ _
    rw [hfiles]
    exact hlimit
  | missing => exact hle
  | forced hfiles _ _ hcontent =>
    exact length_files_le_of_including (congrArg List.length hfiles) (Nat.zero_le _) hcontent
  | collect hfiles => exact htop hfiles
  | flush hfiles => exact htop hfiles
  | flushLast hfiles => exact htop hfiles
  | directive hfiles => exact htop hfiles
  | @inclusion f _ _ _ _ _ _ _ hfiles _ _ _ _ hcontent =>
    exact length_files_le_of_including rfl (@htop f f _ hfiles) hcontent
  | @close f files c hfiles =>
    have hlength := congrArg List.length hfiles
    simp only [List.length_cons] at hlength
    show files.length ≤ _
    omega
  | closeMain => exact Nat.zero_le _

/-- The open files are no more than the limit. -/
structure WithinLimit (config : Config) (p : Preprocessor) : Prop where
  files : p.files.length ≤ config.maxIncludeDepth
  config : p.env.config = config

/-- Whatever happens in a run, the open files stay within the limit. -/
theorem WithinLimit.move {config : Config} (hlimit : 0 < config.maxIncludeDepth)
    {p q : Preprocessor} (hmove : Move p q) (h : WithinLimit config p) : WithinLimit config q := by
  cases hmove with
  | step hstep =>
    have hadvance := advance_of_step hstep
    -- The limit is that of the settings, which no step changes.
    have hle : p.files.length ≤ p.env.config.maxIncludeDepth := by
      rw [h.config]
      exact h.files
    have hq := length_files_le_of_advance (by rw [h.config]; exact hlimit) hle hadvance
    rw [h.config] at hq
    exact ⟨hq, by rw [env_of_advance hadvance, h.config]⟩
  | outside => exact ⟨h.files, h.config⟩

/-! ## Files that are nested too deeply -/

/-- A file that is found while the limit is reached is reported, and the run goes on without it. -/
private theorem Finds.step_of_tooDeep {p p' : Preprocessor} {i : Inclusion} (h : Finds p i p')
    (honce : Context.isOnce p.env i.path p.context = false)
    (hdeep : p.env.config.maxIncludeDepth ≤ p.files.length) :
    ∃ q, p.step = .more q [] ∧ q.files = p'.files ∧
      q.context.diagnostics = p.context.diagnostics ++
        [⟨i.file, i.line, .nestedTooDeeply p.env.config.maxIncludeDepth⟩] := by
  obtain ⟨notes, hread⟩ :=
    Context.reading_of_tooDeep hdeep i (Context.entering p.env i p'.context)
  rw [h.step_of_not_isOnce honce, doing_of_ok hread]
  refine ⟨_, rfl, rfl, ?_⟩
  -- Marking a file to be included once makes no report.
  have hentering : (Context.entering p.env i p'.context).diagnostics = p'.context.diagnostics := by
    unfold Context.entering
    split <;> rfl
  show (Context.entering p.env i p'.context).diagnostics ++ _ = _
  rw [hentering, h.looked.diagnostics]

/-! ## The end of a run -/

/-- From every state, the rest of a run takes only so many steps. -/
theorem exists_runWithin (p : Preprocessor) (j : Joiner) (out : List Token) :
    ∃ n, runWithin n p j out = some (p.runFrom j out) := by
  fun_induction Preprocessor.runFrom p j out with
  | case1 p j out q hstep => exact ⟨1, by simp only [runWithin, hstep]⟩
  | case2 p j out cause q hstep => exact ⟨1, by simp only [runWithin, hstep]⟩
  | case3 p j out q ts hstep joined ih =>
    obtain ⟨n, hn⟩ := ih
    -- One step more than from the next state on.
    refine ⟨n + 1, ?_⟩
    simp only [runWithin, hstep]
    exact hn

/-- Runs end, and files are never nested deeper than the limit. Every run, whatever the settings,
the disk and the text, takes only so many steps. In every state that it comes to, no more files are
open than the limit. If a file is found when as many are open, and is not passed over, the step
adds one report on it, which is about an inclusion, opens no file and gives no token. -/
theorem run_ends_within_limit {config : Config} (hlimit : 0 < config.maxIncludeDepth) (disk : Disk)
    (now : Clock) (nesting : Nat) (file : String) (text : List Char) :
    (∃ n, (ofConfig config disk now nesting).runTextWithin n file text =
      some ((ofConfig config disk now nesting).runText file text)) ∧
    ∀ start p, (ofConfig config disk now nesting).start file text = .ok start → Moves start p →
      p.files.length ≤ config.maxIncludeDepth ∧
      ∀ i p', p.sought? = some (i, p') → Context.isOnce p.env i.path p.context = false →
        config.maxIncludeDepth ≤ p.files.length →
        ∃ q d, p.step = .more q [] ∧ q.files = p'.files ∧
          q.context.diagnostics = p.context.diagnostics ++ [d] ∧ d.problem.topic = .inclusion ∧
          d = ⟨i.file, i.line, .nestedTooDeeply config.maxIncludeDepth⟩ := by
  constructor
  · -- Every run ends, so it is found with enough steps.
    exact exists_runWithin _ {} []
  · intro start p hstart hmoves
    -- At the beginning no file is open.
    have hbegin : WithinLimit config start := by
      cases hstart
      exact ⟨Nat.zero_le _, rfl⟩
    have hp := hmoves.keeps (WithinLimit config) (WithinLimit.move hlimit) hbegin
    refine ⟨hp.files, fun i p' hfound honce hdeep => ?_⟩
    rw [← hp.config] at hdeep ⊢
    obtain ⟨q, hstep, hfiles, hreports⟩ :=
      (sought?_eq_some_iff.1 hfound).step_of_tooDeep honce hdeep
    exact ⟨q, _, hstep, hfiles, hreports, rfl, rfl⟩

/-! ## A header that includes itself without end -/

namespace Endless

/-- Settings that let two files be open. -/
def settings : List (String × Setting) :=
  [("max_include_depth", .integer 2)]

/-- A disk with a header that includes itself. -/
def disk : Disk :=
  .ofTexts [("b.h", "#include \"b.h\"\nx")]

/-- A text that includes the header. -/
def text : List Char :=
  "#include \"b.h\"".toList

/-- A run that has not been started. -/
def idle (config : Config) : Preprocessor :=
  ofConfig config disk .sample

/-- The run on the text. -/
def begun (config : Config) : Preprocessor :=
  { idle config with stage := .forced config.forceIncludes "a.c" text }

end Endless

open Endless in
/-- The header `b.h` is opened once, and refused to itself. -/
theorem run_ends_within_limit_endless : ∃ (config : Config) (p p' q : Preprocessor)
    (i : Inclusion) (d : Diagnostic), Config.ofSettings settings = .ok config ∧
      (∃ n, (idle config).runTextWithin n "a.c" text = some ((idle config).runText "a.c" text)) ∧
      (idle config).start "a.c" text = .ok (begun config) ∧ Moves (begun config) p ∧
      p.sought? = some (i, p') ∧ p.files.length = 2 ∧ p.files.length ≤ config.maxIncludeDepth ∧
      p.step = .more q [] ∧ q.files = p'.files ∧
      q.context.diagnostics = p.context.diagnostics ++ [d] ∧
      d = ⟨"/b.h", 1, .nestedTooDeeply 2⟩ := by
  -- After two steps the header is open, and is found once more.
  have hrun : (Config.ofSettings settings).toOption.any (fun config =>
      config.maxIncludeDepth = 2 ∧
      ((begun config).after? 2).any fun p => p.files.length = 2 ∧ p.context.once = [] ∧
        p.sought?.any fun (i, _) => i.file = "/b.h" ∧ i.line = 1) = true := by
    decide +kernel
  obtain ⟨config, hconfig, hrun⟩ := (Option.any_eq_true _ _).1 hrun
  obtain ⟨hdepth, hrun⟩ := of_decide_eq_true hrun
  obtain ⟨p, hp, hrun⟩ := (Option.any_eq_true _ _).1 hrun
  obtain ⟨hlength, honce, hrun⟩ := of_decide_eq_true hrun
  obtain ⟨⟨i, p'⟩, hfound, hplace⟩ := (Option.any_eq_true _ _).1 hrun
  obtain ⟨hfile, hline⟩ := of_decide_eq_true hplace
  have hread := Except.eq_ok_of_toOption hconfig
  have hmoves : Moves (begun config) p := moves_of_after? hp
  have hnot : Context.isOnce p.env i.path p.context = false := by
    rw [Context.isOnce_eq_false_iff, honce]
    exact List.not_mem_nil
  obtain ⟨hends, hstates⟩ := run_ends_within_limit (Config.maxIncludeDepth_pos hread) disk
    .sample defaultNesting "a.c" text
  obtain ⟨hle, hdeep⟩ := hstates (begun config) p rfl hmoves
  obtain ⟨q, d, hstep, hfiles, hreports, -, hd⟩ := hdeep i p' hfound hnot (by omega)
  rw [hfile, hline, hdepth] at hd
  exact ⟨config, p, p', q, i, d, hread, hends, rfl, hmoves, hfound, hlength, hle, hstep, hfiles,
    hreports, hd⟩

end Preprocessor

end Preproc
