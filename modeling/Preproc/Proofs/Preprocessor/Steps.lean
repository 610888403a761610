import Preproc.Preprocessor

/-!
# What a step does

All that a step of a run can do is said once, in the relation `Advance`: one constructor for each
way in which a run goes on, with what has to hold for it and what it leads to. A statement about
every step is then a statement about each constructor.

## Key results

- `includeFile_eq`: a file is included by reading its text, and opening it if there is one
- `advance_of_step`: a step that the run goes on after is one of those
- `step_of_after?`: several steps are one step and the others
-/

namespace Preproc

namespace Context

/-- What is known, with more notes. -/
def noting (c : Context) (notes : List Note) : Context :=
  { c with notes := c.notes ++ notes.toArray }

/-- Taking a result with its notes never fails. -/
theorem keep_apply {α : Type} (x : Noted α) (c : Context) :
    keep x c = .ok x.value (c.noting x.notes) := rfl

/-- The text of a file that is entered while `opened` files are open; `none` if there are too many,
or the file cannot be read. -/
def reading (env : Environment) (opened : Nat) (i : Inclusion) : ContextM (Option (List Char)) :=
  if opened < env.config.maxIncludeDepth then readIncluded env i
  else do
    tooDeep env i
    pure none

/-- The text of a file that is to be included while `opened` files are open; `none` if that is
refused. -/
def including (env : Environment) (opened : Nat) (i : Inclusion) :
    ContextM (Option (List Char)) := do
  if ← enters env i then reading env opened i else pure none

/-- Looking whether a file is entered never fails. -/
private theorem enters_apply (env : Environment) (i : Inclusion) (c : Context) :
    ∃ b c', enters env i c = .ok b c' := by
  unfold enters
  rw [ContextM.get_bind]
  split
  · exact ⟨_, _, rfl⟩
  · cases i.once with
    | true => exact ⟨_, _, rfl⟩
    | false => exact ⟨_, _, rfl⟩

end Context

namespace Preprocessor

/-- The run with the file `name` opened, if it has a text that is to be processed. -/
def enter (p : Preprocessor) (name : String) : Option (List Char) → Preprocessor
  | none => p
  | some text =>
    let f := OpenFile.ofText name text p.context.conditionals.depth
    { p with context := p.context.noting f.notes, files := f.value :: p.files }

/-- An action that succeeds leads to what is done next. -/
theorem doing_of_ok {α : Type} {p : Preprocessor} {act : ContextM α} {next : α → Context → Step}
    {a : α} {c : Context} (h : act p.context = .ok a c) : p.doing act next = next a c := by
  unfold doing
  rw [h]

/-- An action that fails ends the run. -/
theorem doing_of_error {α : Type} {p : Preprocessor} {act : ContextM α}
    {next : α → Context → Step} {e : Failure} {c : Context} (h : act p.context = .error e c) :
    p.doing act next = .failed e { p with context := c } := by
  unfold doing
  rw [h]

/-- A file is opened if there is a text to be processed; if not, the run goes on without it. -/
theorem includeFile_eq (p : Preprocessor) (i : Inclusion) (files : List OpenFile) (stage : Stage) :
    p.includeFile i files stage =
      ({ p with files, stage } : Preprocessor).doing (Context.including p.env files.length i)
        fun text c => .more (({ p with context := c, files, stage }).enter i.path text) [] := by
  obtain ⟨b, c, henters⟩ := Context.enters_apply p.env i p.context
  have hincluding : Context.including p.env files.length i p.context =
      (if b then Context.reading p.env files.length i else pure none) c :=
    ContextM.bind_of_ok henters
  unfold includeFile
  rw [doing_of_ok henters]
  conv => rhs; unfold doing
  simp only [hincluding]
  cases b with
  -- The file is passed over.
  | false => rfl
  -- The file is entered, and opened if there is room for it and it can be read.
  | true =>
    simp only [if_true, Context.reading]
    split
    · unfold doing
      cases hread : Context.readIncluded p.env i c with
      | error e c' => rfl
      | ok text c' =>
        cases text with
        | none => rfl
        | some text => rfl
    · rfl

/-! ## The ways in which a run goes on -/

/-- What a step does after which the run goes on. -/
inductive Advance (p : Preprocessor) : Preprocessor → List Token → Prop
  /-- The headers that come before the main file are done, and it is opened. -/
  | main {file : String} {text : List Char} (hfiles : p.files = [])
      (hstage : p.stage = .forced [] file text) :
      Advance p (({ p with stage := .main } : Preprocessor).enter file (some text)) []
  /-- A header that comes before the main file is not found. -/
  | missing {header : Path} {rest : List Path} {file : String} {text : List Char} {c c' : Context}
      (hfiles : p.files = []) (hstage : p.stage = .forced (header :: rest) file text)
      (hfound : Context.findHeader p.env file ⟨header.toString, false⟩ p.context = .ok none c)
      (hreport : Context.missingHeader p.env
        ⟨file, 0, .headerNotFound ⟨header.toString, false⟩⟩ ("-include " ++ header.toString) c =
          .ok () c') :
      Advance p { p with context := c', stage := .forced rest file text } []
  /-- A header that comes before the main file is included. -/
  | forced {header : Path} {rest : List Path} {file path : String} {text : List Char}
      {content : Option (List Char)} {c c' : Context} (hfiles : p.files = [])
      (hstage : p.stage = .forced (header :: rest) file text)
      (hfound : Context.findHeader p.env file ⟨header.toString, false⟩ p.context =
        .ok (some path) c)
      (hcontent : Context.including p.env 0 { path, file, line := 0 } c = .ok content c') :
      Advance p (({ p with context := c', stage := .forced rest file text } : Preprocessor).enter
        path content) []
  /-- A line of text is collected if it counts. -/
  | collect {f : OpenFile} {files : List OpenFile} {line : Noted (List Token)}
      {lines : List (Noted (List Token))} (hfiles : p.files = f :: files)
      (hlines : f.lines = line :: lines) (htext : line.value.head?.any Token.isHash = false) :
      Advance p
        { p with
          context := p.context.noting line.notes
          files :=
            { f with
              lines
              pending :=
                if p.context.conditionals.active then line.value.reverse ++ f.pending
                else f.pending } :: files } []
  /-- What was collected is expanded before a directive. -/
  | flush {f : OpenFile} {files : List OpenFile} {line : Noted (List Token)}
      {lines : List (Noted (List Token))} {out : List Token} {c : Context}
      (hfiles : p.files = f :: files) (hlines : f.lines = line :: lines)
      (hhash : line.value.head?.any Token.isHash = true) (hpending : f.pending.isEmpty = false)
      (hout : Context.expand p.env false f.pending.reverse (p.context.noting line.notes) =
        .ok out c) :
      Advance p
        { p with
          context := c
          files := { f with lines := pure line.value :: lines, pending := [] } :: files } out
  /-- What was collected is expanded at the end of the file. -/
  | flushLast {f : OpenFile} {files : List OpenFile} {out : List Token} {c : Context}
      (hfiles : p.files = f :: files) (hlines : f.lines = [])
      (hpending : f.pending.isEmpty = false)
      (hout : Context.expand p.env false f.pending.reverse p.context = .ok out c) :
      Advance p
        { p with context := c, files := { f with lines := [], pending := [] } :: files } out
  /-- A directive is carried out that includes no file. -/
  | directive {f : OpenFile} {files : List OpenFile} {line : Noted (List Token)}
      {lines : List (Noted (List Token))} {c : Context} (hfiles : p.files = f :: files)
      (hlines : f.lines = line :: lines) (hhash : line.value.head?.any Token.isHash = true)
      (hpending : f.pending.isEmpty = true)
      (hdone : Context.directive p.env f.base line.value (p.context.noting line.notes) =
        .ok none c) :
      Advance p { p with context := c, files := { f with lines } :: files } []
  /-- A directive includes a file. -/
  | inclusion {f : OpenFile} {files : List OpenFile} {line : Noted (List Token)}
      {lines : List (Noted (List Token))} {i : Inclusion} {content : Option (List Char)}
      {c c' : Context} (hfiles : p.files = f :: files) (hlines : f.lines = line :: lines)
      (hhash : line.value.head?.any Token.isHash = true) (hpending : f.pending.isEmpty = true)
      (hdone : Context.directive p.env f.base line.value (p.context.noting line.notes) =
        .ok (some i) c)
      (hcontent : Context.including p.env (files.length + 1) i c = .ok content c') :
      Advance p (({ p with context := c', files := { f with lines } :: files } :
        Preprocessor).enter i.path content) []
  /-- A file is closed that is not the main file. -/
  | close {f : OpenFile} {files : List OpenFile} {c : Context} (hfiles : p.files = f :: files)
      (hlines : f.lines = []) (hpending : f.pending.isEmpty = true)
      (hmain : ¬(files = [] ∧ p.stage = .main))
      (hclose : Context.closeGroups p.env f.name f.eof.line f.base (p.context.noting f.closing) =
        .ok () c) :
      Advance p { p with context := c, files } []
  /-- The main file is closed. -/
  | closeMain {f : OpenFile} {c : Context} (hfiles : p.files = [f]) (hlines : f.lines = [])
      (hpending : f.pending.isEmpty = true) (hmain : p.stage = .main)
      (hclose : Context.closeGroups p.env f.name f.eof.line f.base (p.context.noting f.closing) =
        .ok () c) :
      Advance p { p with context := c, files := [], stage := .ended } [f.eof]

/-- If the run goes on after an action, the action has succeeded. -/
theorem of_doing {α : Type} {p q : Preprocessor} {act : ContextM α} {next : α → Context → Step}
    {out : List Token} (h : p.doing act next = .more q out) :
    ∃ a c, act p.context = .ok a c ∧ next a c = .more q out := by
  cases hact : act p.context with
  | ok a c =>
    rw [doing_of_ok hact] at h
    exact ⟨a, c, rfl, h⟩
  | error e c =>
    rw [doing_of_error hact] at h
    cases h

/-- If the run goes on, the file is included or refused, and no token is given. -/
private theorem of_includeFile {p q : Preprocessor} {i : Inclusion} {files : List OpenFile}
    {stage : Stage} {out : List Token} (h : p.includeFile i files stage = .more q out) :
    ∃ content c, Context.including p.env files.length i p.context = .ok content c ∧
      q = ({ p with context := c, files, stage } : Preprocessor).enter i.path content ∧
      out = [] := by
  rw [includeFile_eq] at h
  obtain ⟨content, c, hcontent, h⟩ := of_doing h
  cases h
  exact ⟨content, c, hcontent, rfl, rfl⟩

/-- What is done before the main file is one of the ways to go on. -/
private theorem advance_of_stepForced {p q : Preprocessor} {todo : List Path} {file : String}
    {text : List Char} {out : List Token} (hfiles : p.files = [])
    (hstage : p.stage = .forced todo file text) (h : p.stepForced todo file text = .more q out) :
    Advance p q out := by
  cases todo with
  -- The forced headers are done, and the main file follows.
  | nil =>
    cases h
    have hmain := Advance.main hfiles hstage
    simp only [enter, hfiles] at hmain
    exact hmain
  | cons header rest =>
    simp only [stepForced] at h
    obtain ⟨found, c, hfound, h⟩ := of_doing h
    cases found with
    -- The header is missing, which is reported.
    | none =>
      obtain ⟨_, c', hreport, h⟩ := of_doing h
      cases h
      exact .missing hfiles hstage hfound hreport
    | some path =>
      obtain ⟨content, c', hcontent, rfl, rfl⟩ := of_includeFile h
      have hforced := Advance.forced hfiles hstage hfound hcontent
      rw [hfiles] at hforced
      exact hforced

/-- What is done with a line is one of the ways to go on. -/
private theorem advance_of_takeLine {p q : Preprocessor} {f : OpenFile} {line : Noted (List Token)}
    {lines : List (Noted (List Token))} {files : List OpenFile} {out : List Token}
    (hfiles : p.files = f :: files) (hlines : f.lines = line :: lines)
    (h : p.takeLine f line lines files = .more q out) : Advance p q out := by
  rw [takeLine, doing_of_ok (Context.keep_apply line p.context)] at h
  simp only at h
  split at h
  · rename_i hhash
    split at h
    · -- No text is pending, so the directive is carried out.
      rename_i hpending
      obtain ⟨wanted, c, hdone, h⟩ := of_doing h
      cases wanted with
      | none =>
        cases h
        exact .directive hfiles hlines hhash hpending hdone
      | some i =>
        obtain ⟨content, c', hcontent, rfl, rfl⟩ := of_includeFile h
        exact .inclusion hfiles hlines hhash hpending hdone hcontent
    · -- The pending text is expanded first.
      rename_i hpending
      obtain ⟨out', c, hout, h⟩ := of_doing h
      cases h
      exact .flush hfiles hlines hhash (by simpa using hpending) hout
  · -- A line of text is collected.
    rename_i hhash
    cases h
    exact .collect hfiles hlines (by simpa using hhash)

/-- Closing a file is one of the ways to go on. -/
private theorem advance_of_close {p q : Preprocessor} {f : OpenFile} {files : List OpenFile}
    {out : List Token} (hfiles : p.files = f :: files) (hlines : f.lines = [])
    (hpending : f.pending.isEmpty = true) (h : p.close f files = .more q out) :
    Advance p q out := by
  obtain ⟨_, c, hclose, h⟩ := of_doing h
  obtain ⟨_, c₁, hkeep, hclose⟩ := ContextM.bind_eq_ok_iff.1 hclose
  rw [Context.keep_apply] at hkeep
  cases hkeep
  split at h
  · -- The last file is the main one, and its end is the end of the run.
    rename_i hmain _ _
    cases h
    exact .closeMain hfiles hlines hpending hmain hclose
  · rename_i hmain
    cases h
    exact .close hfiles hlines hpending (fun h => hmain h.1 h.2) hclose

/-- A step after which the run goes on is one of the ways in which it can. -/
theorem advance_of_step {p q : Preprocessor} {out : List Token} (h : p.step = .more q out) :
    Advance p q out := by
  unfold step at h
  split at h
  · -- No file is open, so one of the forced headers or the main file is next.
    rename_i hfiles
    split at h
    · rename_i hstage
      exact advance_of_stepForced hfiles hstage h
    · cases h
  · -- The innermost file gives its next line, its last text, or ends.
    rename_i f files hfiles
    split at h
    · rename_i line lines hlines
      exact advance_of_takeLine hfiles hlines h
    · rename_i hlines
      split at h
      · rename_i hpending
        exact advance_of_close hfiles hlines hpending h
      · rename_i hpending
        obtain ⟨out', c, hout, h⟩ := of_doing h
        cases h
        exact .flushLast hfiles hlines (by simpa using hpending) hout

/-! ## A number of steps -/

/-- The run after `n` steps, if it goes on as long. -/
def after? : Nat → Preprocessor → Option Preprocessor
  | 0, p => some p
  | n + 1, p =>
    match p.step with
    | .more q _ => after? n q
    | _ => none

/-- Steps are taken one after the other. -/
theorem step_of_after? {n : Nat} {p q : Preprocessor} (h : p.after? (n + 1) = some q) :
    ∃ r out, p.step = .more r out ∧ r.after? n = some q := by
  unfold after? at h
  cases hstep : p.step with
  | more r out =>
    rw [hstep] at h
    exact ⟨r, out, rfl, h⟩
  -- A run that has ended takes no steps.
  | done r =>
    rw [hstep] at h
    cases h
  | failed e r =>
    rw [hstep] at h
    cases h

/-- What comes after one step is what the step leads to. -/
theorem step_of_after?_one {p q : Preprocessor} (h : p.after? 1 = some q) :
    ∃ out, p.step = .more q out := by
  obtain ⟨r, out, hstep, hrest⟩ := step_of_after? h
  cases hrest
  exact ⟨out, hstep⟩

end Preprocessor

end Preproc
