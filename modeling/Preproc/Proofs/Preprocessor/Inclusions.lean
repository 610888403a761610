import Preproc.Proofs.Preprocessor.Directives
import Preproc.Proofs.Preprocessor.Nesting

/-!
# Asking for a file

An include directive, or a header that comes before the main file, asks for a file. The file is
looked for; if it is found, it may be refused, because it is included only once, because too many
files are open, or because it cannot be read. Here is said which step of a run asks for a file
(`request?`), which file is found (`sought?`), and what then happens to it.

## Key results

- `including_of_isOnce`, `including_of_not_isOnce`: when a file is passed over
- `Finds.step`: a file that is found is included, or refused
- `Finds.looked`: finding a file changes nothing but the lines left and where headers are
- `exists_finds_of_opens`: every file but the main file is opened because it was found
-/

namespace Preproc

namespace Context

/-! ## Looking for the file of a directive -/

/-- Finding the file of a directive reports nothing, and the file is to be included as the directive
says. -/
private theorem of_inclusion?_some {env : Environment} {d : DirectiveLine} {target : IncludeTarget}
    {once : Bool} {c c' : Context} {i : Inclusion}
    (h : inclusion? env d target once c = .ok (some i) c') :
    i.file = d.file ∧ i.line = d.line ∧ i.once = once ∧ c'.diagnostics = c.diagnostics := by
  -- However its name was read, the file is looked for in the same way.
  have hheader : ∀ {name c}, inclusion? env d (.header name) once c = .ok (some i) c' →
      i.file = d.file ∧ i.line = d.line ∧ i.once = once ∧ c'.diagnostics = c.diagnostics := by
    intro name c h
    unfold inclusion? at h
    simp only [pure_bind] at h
    obtain ⟨found, c₁, hfound, h⟩ := ContextM.bind_eq_ok_iff.1 h
    cases found with
    | some path =>
      cases h
      exact ⟨rfl, rfl, rfl, keeps_findHeader _ _ _ hfound⟩
    | none =>
      obtain ⟨_, c₂, -, h⟩ := ContextM.bind_eq_ok_iff.1 h
      cases h
  cases target with
  | header name => exact hheader h
  | computed ts =>
    obtain ⟨out, c₁, hexpand, h⟩ := ContextM.bind_eq_ok_iff.1 h
    rw [← keeps_expand _ _ _ hexpand]
    cases hread : readHeaderName out with
    | ok read =>
      rw [hread] at h
      exact hheader h
    | error e =>
      rw [hread] at h
      obtain ⟨_, c₂, -, h⟩ := ContextM.bind_eq_ok_iff.1 h
      cases h

/-- Only an include directive asks for a file. -/
theorem inclusion?_of_carryOut {env : Environment} {base : Nat} {d : DirectiveLine} {c c' : Context}
    {i : Inclusion} (h : carryOut env base d c = .ok (some i) c') :
    ∃ target once, d.directive = .inclusion target once ∧
      inclusion? env d target once c = .ok (some i) c' := by
  -- A directive that opens a group asks for no file.
  have opens : ∀ {condition : ContextM Bool}, LooksOnly condition →
      (do
        openGroup condition
        pure none) c = .ok (some i) c' → some i = none :=
    fun hlooks h => (guards_opens hlooks h : Guards base c c' ∧ _).2
  obtain ⟨tokens, directive⟩ := d
  cases directive with
  | inclusion target once => exact ⟨target, once, rfl, h⟩
  | define name params body => cases h
  | undef name => cases h
  | other => cases h
  | pragma args =>
    unfold carryOut at h
    simp only at h
    split at h
    · cases h
    · cases h
  | ifTrue condition => cases (opens (looksOnly_test _ _ _) h)
  | ifdef name => cases (opens (looksOnly_nameTest _ _) h)
  | ifndef name => cases (opens (looksOnly_nameTest _ _) h)
  | elifTrue condition =>
    cases (guards_closesGroup (innermostOnly_elifBranch (looksOnly_test _ _ _)) h).2
  | elifdef name =>
    cases (guards_closesGroup (innermostOnly_elifBranch (looksOnly_nameTest _ _)) h).2
  | elifndef name =>
    cases (guards_closesGroup (innermostOnly_elifBranch (looksOnly_nameTest _ _)) h).2
  | otherwise => cases (guards_closesGroup innermostOnly_otherwise h).2
  | endif => cases (guards_closesGroup innermostOnly_endif h).2

/-- A line that finds a file holds an include directive that counts. -/
private theorem heeded_of_directive {env : Environment} {base : Nat} {line : List Token}
    {c c' : Context} {i : Inclusion} (h : directive env base line c = .ok (some i) c') :
    ∃ d target once, c.heeded? line = some d ∧ d.directive = .inclusion target once ∧
      inclusion? env d target once (c.afterReading line) = .ok (some i) c' := by
  cases hd : c.heeded? line with
  -- Only a line that is heeded asks for a file.
  | none =>
    obtain ⟨notes, hnone⟩ := directive_of_unheeded hd env base
    rw [hnone] at h
    cases h
  | some d =>
    rw [directive_of_heeded hd] at h
    obtain ⟨target, once, hdirective, hfound⟩ := inclusion?_of_carryOut h
    exact ⟨d, target, once, rfl, hdirective, hfound⟩

/-! ## Including a file -/

/-- A file is passed over if its canonical name is among those to be included once. -/
theorem isOnce_iff {env : Environment} {file : String} {c : Context} :
    isOnce env file c = true ↔ canonicalName env file ∈ c.once :=
  List.contains_iff_mem

theorem isOnce_eq_false_iff {env : Environment} {file : String} {c : Context} :
    isOnce env file c = false ↔ canonicalName env file ∉ c.once := by
  rw [← isOnce_iff, Bool.not_eq_true]

/-- Nothing else matters to it. -/
theorem isOnce_congr {c c' : Context} (h : c'.once = c.once) (env : Environment) (file : String) :
    isOnce env file c' = isOnce env file c := by
  unfold isOnce
  rw [h]

/-- What is known once the file `i` is entered: if it is not to be included again, so it is. -/
def entering (env : Environment) (i : Inclusion) (c : Context) : Context :=
  if i.once then { c with once := canonicalName env i.path :: c.once } else c

/-- A file that is not to be included again is passed over. -/
theorem including_of_isOnce {env : Environment} {i : Inclusion} {c : Context}
    (h : isOnce env i.path c = true) (opened : Nat) : including env opened i c = .ok none c := by
  have henters : enters env i c = .ok false c := by
    unfold enters
    rw [ContextM.get_bind, if_pos h]
    rfl
  exact ContextM.bind_of_ok henters

/-- Any other file is entered. -/
theorem including_of_not_isOnce {env : Environment} {i : Inclusion} {c : Context}
    (h : isOnce env i.path c = false) (opened : Nat) :
    including env opened i c = reading env opened i (entering env i c) := by
  have henters : enters env i c = .ok true (entering env i c) := by
    unfold enters entering
    rw [ContextM.get_bind, if_neg (by simp [h])]
    cases i.once with
    | true => rfl
    | false => rfl
  exact ContextM.bind_of_ok henters

/-- A file for which too many files are open is reported, and has no text. -/
theorem reading_of_tooDeep {env : Environment} {opened : Nat}
    (h : env.config.maxIncludeDepth ≤ opened) (i : Inclusion) (c : Context) :
    ∃ notes, reading env opened i c = .ok none
      { c with
        notes
        diagnostics := c.diagnostics ++
          [⟨i.file, i.line, .nestedTooDeeply env.config.maxIncludeDepth⟩] } := by
  unfold reading
  rw [if_neg (by omega)]
  exact ⟨_, rfl⟩

/-- A file for which there is room has the text that is on the disk. -/
theorem reading_of_text {env : Environment} {opened : Nat} {i : Inclusion} {text : List Char}
    (h : opened < env.config.maxIncludeDepth)
    (hread : env.disk.read env.config.charset i.path = .ok text) (c : Context) :
    reading env opened i c = .ok (some text) c := by
  unfold reading readIncluded
  rw [if_pos h, hread]
  rfl

/-- A file is read if there is room for it, and its text is the one on the disk. -/
private theorem of_reading_some {env : Environment} {opened : Nat} {i : Inclusion}
    {text : List Char} {c c' : Context} (h : reading env opened i c = .ok (some text) c') :
    opened < env.config.maxIncludeDepth ∧
      env.disk.read env.config.charset i.path = .ok text := by
  unfold reading at h
  split at h
  · rename_i hroom
    unfold readIncluded at h
    cases hread : env.disk.read env.config.charset i.path with
    | ok content =>
      rw [hread] at h
      cases h
      exact ⟨hroom, rfl⟩
    -- A file that cannot be read gives no text, reported or not.
    | error cause =>
      rw [hread] at h
      simp only at h
      split at h
      · cases h
      · cases h
  · cases h

/-- A file that is included has not been passed over, and there was room for it. -/
theorem of_including_some {env : Environment} {opened : Nat} {i : Inclusion} {text : List Char}
    {c c' : Context} (h : including env opened i c = .ok (some text) c') :
    isOnce env i.path c = false ∧ opened < env.config.maxIncludeDepth ∧
      env.disk.read env.config.charset i.path = .ok text := by
  cases honce : isOnce env i.path c with
  -- A file that is passed over gives no text.
  | true =>
    rw [including_of_isOnce honce] at h
    cases h
  | false =>
    rw [including_of_not_isOnce honce] at h
    exact ⟨rfl, of_reading_some h⟩

end Context

/-! ## Steps that ask for a file -/

/-- What asks for a file: where it stands, what it names, and whether the file is not to be included
again. -/
structure Request where
  file : String
  line : Nat
  target : IncludeTarget
  once : Bool
deriving DecidableEq, Repr

/-- The file without the lines that are left in it. -/
def OpenFile.frame (f : OpenFile) : OpenFile :=
  { f with lines := [] }

namespace Preprocessor

/-- The directive that the next step carries out. -/
def handled? (p : Preprocessor) : Option DirectiveLine :=
  match p.files with
  | [] => none
  | f :: _ =>
    match f.lines with
    | [] => none
    | line :: _ =>
      if line.value.head?.any Token.isHash && f.pending.isEmpty then p.context.heeded? line.value
      else none

/-- What asks for a file in the next step: a header that comes before the main file, or an include
directive. -/
def request? (p : Preprocessor) : Option Request :=
  match p.files with
  | [] =>
    match p.stage with
    | .forced (header :: _) file _ => some ⟨file, 0, .header ⟨header.toString, false⟩, false⟩
    | _ => none
  | _ :: _ =>
    match p.handled? with
    | none => none
    | some d =>
      match d.directive with
      | .inclusion target once => some ⟨d.file, d.line, target, once⟩
      | _ => none

/-- The file that the next step finds, and the run with what asks for it taken off. -/
def sought? (p : Preprocessor) : Option (Inclusion × Preprocessor) :=
  match p.files with
  | [] =>
    match p.stage with
    | .forced (header :: rest) file text =>
      match Context.findHeader p.env file ⟨header.toString, false⟩ p.context with
      | .ok (some path) c =>
        some ({ path, file, line := 0 }, { p with context := c, stage := .forced rest file text })
      | _ => none
    | _ => none
  | f :: files =>
    match f.lines with
    | [] => none
    | line :: lines =>
      if line.value.head?.any Token.isHash && f.pending.isEmpty then
        match Context.directive p.env f.base line.value (p.context.noting line.notes) with
        | .ok (some i) c => some (i, { p with context := c, files := { f with lines } :: files })
        | _ => none
      else none

/-- All ways in which a step can find a file. -/
inductive Finds (p : Preprocessor) : Inclusion → Preprocessor → Prop
  | forced {header : Path} {rest : List Path} {file path : String} {text : List Char} {c : Context}
      (hfiles : p.files = []) (hstage : p.stage = .forced (header :: rest) file text)
      (hfound : Context.findHeader p.env file ⟨header.toString, false⟩ p.context =
        .ok (some path) c) :
      Finds p { path, file, line := 0 } { p with context := c, stage := .forced rest file text }
  | directive {f : OpenFile} {files : List OpenFile} {line : Noted (List Token)}
      {lines : List (Noted (List Token))} {i : Inclusion} {c : Context}
      (hfiles : p.files = f :: files) (hlines : f.lines = line :: lines)
      (hhash : line.value.head?.any Token.isHash = true)
      (hpending : f.pending.isEmpty = true)
      (hdone : Context.directive p.env f.base line.value (p.context.noting line.notes) =
        .ok (some i) c) :
      Finds p i { p with context := c, files := { f with lines } :: files }

/-- The file that a step finds can be computed. -/
theorem sought?_eq_some_iff {p p' : Preprocessor} {i : Inclusion} :
    p.sought? = some (i, p') ↔ Finds p i p' := by
  constructor
  · intro h
    unfold sought? at h
    split at h
    · -- No file is open, so it is the next of the forced headers.
      rename_i hfiles
      split at h
      · rename_i hstage
        split at h
        · rename_i hfound
          cases h
          exact .forced hfiles hstage hfound
        · cases h
      · cases h
    · -- The innermost file has a directive.
      rename_i hfiles
      split at h
      · cases h
      · rename_i hlines
        split at h
        · rename_i hline
          obtain ⟨hhash, hpending⟩ := Bool.and_eq_true_iff.1 hline
          split at h
          · rename_i hdone
            cases h
            exact .directive hfiles hlines hhash hpending hdone
          · cases h
        · cases h
  · intro h
    unfold sought?
    cases h with
    | forced hfiles hstage hfound => simp only [hfiles, hstage, hfound]
    | directive hfiles hlines hhash hpending hdone =>
      simp only [hfiles, hlines, hhash, hpending, hdone, Bool.and_self, if_true]

/-- The directive that the next step carries out stands in the innermost file, which has nothing
collected. -/
theorem of_handled {p : Preprocessor} {d : DirectiveLine} (h : p.handled? = some d) :
    ∃ f files line lines, p.files = f :: files ∧ f.lines = line :: lines ∧
      line.value.head?.any Token.isHash = true ∧ f.pending.isEmpty = true ∧
      p.context.heeded? line.value = some d := by
  unfold handled? at h
  split at h
  · cases h
  · rename_i f files hfiles
    split at h
    · cases h
    · rename_i line lines hlines
      split at h
      · -- Directives are carried out when no text is pending.
        rename_i hline
        obtain ⟨hhash, hpending⟩ := Bool.and_eq_true_iff.1 hline
        exact ⟨f, files, line, lines, hfiles, hlines, hhash, hpending, h⟩
      · cases h

/-- A directive on the next line is the one that the next step carries out. -/
theorem handled?_eq {p : Preprocessor} {f : OpenFile} {files : List OpenFile}
    {line : Noted (List Token)} {lines : List (Noted (List Token))} (hfiles : p.files = f :: files)
    (hlines : f.lines = line :: lines) (hhash : line.value.head?.any Token.isHash = true)
    (hpending : f.pending.isEmpty = true) : p.handled? = p.context.heeded? line.value := by
  simp only [handled?, hfiles, hlines, hhash, hpending, Bool.and_self, if_true]

section Hash

variable {p : Preprocessor} {f : OpenFile} {files : List OpenFile} {line : Noted (List Token)}
  {lines : List (Noted (List Token))} {c : Context}

/-- A directive that asks for no file leads to the next line. -/
theorem step_of_directive_none (hfiles : p.files = f :: files) (hlines : f.lines = line :: lines)
    (hhash : line.value.head?.any Token.isHash = true) (hpending : f.pending.isEmpty = true)
    (hdone : Context.directive p.env f.base line.value (p.context.noting line.notes) =
      .ok none c) :
    p.step = .more { p with context := c, files := { f with lines } :: files } [] := by
  simp only [step, hfiles, hlines, takeLine, doing_of_ok (Context.keep_apply _ _), hhash, hpending,
    if_true]
  rw [doing_of_ok hdone]

/-- A directive that asks for a file leads to including it. -/
private theorem step_of_directive_some {i : Inclusion} (hfiles : p.files = f :: files)
    (hlines : f.lines = line :: lines) (hhash : line.value.head?.any Token.isHash = true)
    (hpending : f.pending.isEmpty = true)
    (hdone : Context.directive p.env f.base line.value (p.context.noting line.notes) =
      .ok (some i) c) :
    p.step = ({ p with context := c } : Preprocessor).includeFile i ({ f with lines } :: files)
      p.stage := by
  simp only [step, hfiles, hlines, takeLine, doing_of_ok (Context.keep_apply _ _), hhash, hpending,
    if_true]
  rw [doing_of_ok hdone]

/-- A directive that fails ends the run. -/
theorem step_of_directive_error {e : Failure} (hfiles : p.files = f :: files)
    (hlines : f.lines = line :: lines) (hhash : line.value.head?.any Token.isHash = true)
    (hpending : f.pending.isEmpty = true)
    (hdone : Context.directive p.env f.base line.value (p.context.noting line.notes) =
      .error e c) : p.step = .failed e { p with context := c } := by
  simp only [step, hfiles, hlines, takeLine, doing_of_ok (Context.keep_apply _ _), hhash, hpending,
    if_true]
  rw [doing_of_error hdone]

end Hash

/-! ## Steps that find a file -/

/-- Nothing has changed but the lines that are left, the notes, and what is known of headers. -/
structure Looked (p p' : Preprocessor) : Prop where
  env : p'.env = p.env
  alike : p.context.Alike p'.context
  diagnostics : p'.context.diagnostics = p.context.diagnostics
  frames : p'.files.map OpenFile.frame = p.files.map OpenFile.frame

/-- Looking opens and closes no file. -/
theorem Looked.length_files {p p' : Preprocessor} (h : Looked p p') :
    p'.files.length = p.files.length := by
  have hlength := congrArg List.length h.frames
  simpa using hlength

/-- Taking a line off a file leaves its frame. -/
theorem frames_of_files {p : Preprocessor} {f : OpenFile} {files : List OpenFile}
    (hfiles : p.files = f :: files) (lines : List (Noted (List Token))) :
    (({ f with lines } : OpenFile) :: files).map OpenFile.frame = p.files.map OpenFile.frame := by
  rw [hfiles]
  rfl

/-- Finding a file only looks. -/
theorem Finds.looked {p p' : Preprocessor} {i : Inclusion} (h : Finds p i p') : Looked p p' := by
  cases h with
  | forced hfiles hstage hfound =>
    exact ⟨rfl, Context.looksOnly_findHeader _ _ _ hfound,
      Context.keeps_findHeader _ _ _ hfound, rfl⟩
  | directive hfiles hlines hhash hpending hdone =>
    obtain ⟨d, target, once, -, -, hfound⟩ := Context.heeded_of_directive hdone
    have halike := Context.looksOnly_inclusion? _ _ _ _ hfound
    refine ⟨rfl, ⟨halike.macros, halike.conditionals, halike.once⟩, ?_, frames_of_files hfiles _⟩
    exact (Context.of_inclusion?_some hfound).2.2.2

/-- A file is found because something asks for it. -/
theorem Finds.request {p p' : Preprocessor} {i : Inclusion} (h : Finds p i p') :
    ∃ r, p.request? = some r ∧ i.file = r.file ∧ i.line = r.line ∧ i.once = r.once := by
  cases h with
  | forced hfiles hstage hfound =>
    exact ⟨_, by simp only [request?, hfiles, hstage]; rfl, rfl, rfl, rfl⟩
  | directive hfiles hlines hhash hpending hdone =>
    obtain ⟨d, target, once, hd, hdirective, hfound⟩ := Context.heeded_of_directive hdone
    obtain ⟨hfile, hline, honce, -⟩ := Context.of_inclusion?_some hfound
    -- The directive is the one that the step carries out.
    have hhandled : p.handled? = some d := (handled?_eq hfiles hlines hhash hpending).trans hd
    refine ⟨⟨d.file, d.line, target, once⟩, ?_, hfile, hline, honce⟩
    simp only [request?, hfiles, hhandled, hdirective]

/-- A file that is found is opened, if it has a text that is to be processed. -/
theorem Finds.step {p p' : Preprocessor} {i : Inclusion} (h : Finds p i p') :
    p.step = p'.doing (Context.including p'.env p'.files.length i) fun text c =>
      .more (({ p' with context := c } : Preprocessor).enter i.path text) [] := by
  cases h with
  | @forced header rest file path text c hfiles hstage hfound =>
    simp only [Preprocessor.step, hfiles, hstage, stepForced]
    rw [doing_of_ok hfound]
    simp only
    rw [includeFile_eq]
  | directive hfiles hlines hhash hpending hdone =>
    rw [step_of_directive_some hfiles hlines hhash hpending hdone, includeFile_eq]

/-- A file that is not to be included again is passed over. -/
theorem Finds.step_of_isOnce {p p' : Preprocessor} {i : Inclusion} (h : Finds p i p')
    (honce : Context.isOnce p.env i.path p.context = true) : p.step = .more p' [] := by
  have honce' : Context.isOnce p'.env i.path p'.context = true := by
    rw [h.looked.env, Context.isOnce_congr h.looked.alike.once]
    exact honce
  rw [h.step, doing_of_ok (Context.including_of_isOnce honce' _)]
  rfl

/-- Any other file is entered. -/
theorem Finds.step_of_not_isOnce {p p' : Preprocessor} {i : Inclusion} (h : Finds p i p')
    (honce : Context.isOnce p.env i.path p.context = false) :
    p.step = ({ p' with context := Context.entering p.env i p'.context } : Preprocessor).doing
      (Context.reading p.env p.files.length i) fun text c =>
        .more (({ p' with context := c } : Preprocessor).enter i.path text) [] := by
  -- Looking for the file marks nothing.
  have honce' : Context.isOnce p'.env i.path p'.context = false := by
    rw [h.looked.env, Context.isOnce_congr h.looked.alike.once]
    exact honce
  rw [h.step]
  unfold doing
  rw [Context.including_of_not_isOnce honce', h.looked.env, h.looked.length_files]

/-- The main file is opened by the next step. -/
def StartsMain (p : Preprocessor) : Prop :=
  p.files = [] ∧ ∃ file text, p.stage = .forced [] file text

/-- Every file but the main file is opened because it was found. -/
theorem exists_finds_of_opens {p q : Preprocessor} {out : List Token} (h : Advance p q out)
    (hmore : p.files.length < q.files.length) (hmain : ¬p.StartsMain) :
    ∃ i p' text c, Finds p i p' ∧
      Context.including p.env p.files.length i p'.context = .ok (some text) c ∧
      q = ({ p' with context := c } : Preprocessor).enter i.path (some text) := by
  cases h with
  | main hfiles hstage => exact absurd ⟨hfiles, _, _, hstage⟩ hmain
  -- All other steps open no file.
  | missing => exact absurd hmore (Nat.lt_irrefl _)
  | @forced _ _ _ path text content c c' hfiles hstage hfound hcontent =>
    cases content with
    | none => exact absurd hmore (Nat.lt_irrefl _)
    | some content =>
      refine ⟨_, _, content, c', .forced hfiles hstage hfound, ?_, rfl⟩
      rw [hfiles]
      exact hcontent
  | collect hfiles => simp [hfiles] at hmore
  | flush hfiles => simp [hfiles] at hmore
  | flushLast hfiles => simp [hfiles] at hmore
  | directive hfiles => simp [hfiles] at hmore
  | @inclusion _ _ _ _ i content c c' hfiles hlines hhash hpending hdone hcontent =>
    cases content with
    | none =>
      rw [hfiles] at hmore
      exact absurd hmore (Nat.lt_irrefl _)
    | some content =>
      refine ⟨i, _, content, c', .directive hfiles hlines hhash hpending hdone, ?_, rfl⟩
      rw [hfiles]
      exact hcontent
  | @close f files c hfiles =>
    have hlt : p.files.length < files.length := hmore
    rw [hfiles, List.length_cons] at hlt
    omega
  | closeMain hfiles => exact absurd hmore (Nat.not_lt_zero _)

/-! ## Later states -/

/-- No step changes the settings or the disk. -/
theorem env_of_advance {p q : Preprocessor} {out : List Token} (h : Advance p q out) :
    q.env = p.env := by
  -- Entering a file changes the stack of files alone.
  have henter : ∀ (r : Preprocessor) (name : String) (content : Option (List Char)),
      (r.enter name content).env = r.env := by
    intro r name content
    cases content with
    | none => rfl
    | some text => rfl
  cases h with
  | main => exact henter _ _ _
  | forced => exact henter _ _ _
  | inclusion => exact henter _ _ _
  | missing => rfl
  | collect => rfl
  | flush => rfl
  | flushLast => rfl
  | directive => rfl
  | close => rfl
  | closeMain => rfl

/-- The run comes from `p` to `q`, by steps and by what happens to it from outside. -/
inductive Moves : Preprocessor → Preprocessor → Prop
  | refl (p : Preprocessor) : Moves p p
  | move {p q r : Preprocessor} (first : Move p q) (rest : Moves q r) : Moves p r

/-- What every move keeps holds in every later state. -/
theorem Moves.keeps {p q : Preprocessor} (h : Moves p q) (holds : Preprocessor → Prop)
    (hmove : ∀ {p q : Preprocessor}, Move p q → holds p → holds q) (hp : holds p) : holds q := by
  induction h with
  | refl => exact hp
  | move first _ ih => exact ih (hmove first hp)

/-- Steps are moves. -/
theorem moves_of_after? {n : Nat} {p q : Preprocessor} (h : p.after? n = some q) : Moves p q := by
  induction n generalizing p with
  | zero =>
    cases h
    exact .refl _
  | succ n ih =>
    obtain ⟨r, out, hstep, hrest⟩ := step_of_after? h
    exact .move (.step hstep) (ih hrest)

end Preprocessor

end Preproc
