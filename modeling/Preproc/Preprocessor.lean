import Preproc.Context

/-!
# A run

A run works on a stack of open files, the innermost first. Each step takes one logical line of the
innermost file, or closes it. Lines that are no directives are collected, so that an invocation may
reach over several of them, and expanded together before the next directive or the end of the file.

A step gives the tokens that it produces; the run can be left between two steps and taken up later.
-/

namespace Preproc

/-- A file being processed. -/
structure OpenFile where
  name : String
  /-- The logical lines still to be processed. -/
  lines : List (Noted (List Token))
  /-- The notes made after the last line. -/
  closing : List Note
  /-- The tokens of the lines collected, newest first. -/
  pending : List Token := []
  /-- The number of groups that were open when the file was opened. -/
  base : Nat
  /-- The token that ends the file. -/
  eof : Token
deriving Repr

/-- Opens a file while `base` groups are open. -/
def OpenFile.ofText (name : String) (text : List Char) (base : Nat) : Noted OpenFile :=
  (fun lexed =>
    { name, lines := lexed.lines.1, closing := lexed.lines.2, base, eof := lexed.eof.value })
    <$> lexText name text

/-- How far a run has come. -/
inductive Stage where
  /-- The run has not been started. -/
  | idle
  /-- The headers `todo` are still to be processed, and then the text of the main file. -/
  | forced (todo : List Path) (file : String) (text : List Char)
  /-- The main file has been opened. -/
  | main
  /-- The main file has been closed. -/
  | ended
deriving Repr

/-- A run. -/
structure Preprocessor where
  env : Environment
  context : Context
  /-- The open files, innermost first. -/
  files : List OpenFile := []
  stage : Stage := .idle
deriving Repr

/-- What a step leads to. -/
inductive Step where
  /-- The run goes on; the step produced tokens. -/
  | more (p : Preprocessor) (out : List Token)
  /-- The run is complete. -/
  | done (p : Preprocessor)
  | failed (cause : Failure) (p : Preprocessor)
deriving Repr

namespace Preprocessor

/-- A run that has not been started. -/
def ofConfig (config : Config) (disk : Disk) (now : Clock) (nesting : Nat := defaultNesting) :
    Preprocessor :=
  { env := { config, disk, nesting }, context := Context.start config now }

/-- Starts a run on the text of the main file. -/
def start (p : Preprocessor) (file : String) (text : List Char) : Except Failure Preprocessor :=
  match p.stage with
  | .idle => .ok { p with stage := .forced p.env.config.forceIncludes file text }
  | _ => .error .alreadyStarted

/-- Does one thing to what is known, and goes on with the result. -/
def doing {α : Type} (p : Preprocessor) (act : ContextM α) (next : α → Context → Step) : Step :=
  match act p.context with
  | .ok a c => next a c
  | .error cause c => .failed cause { p with context := c }

/-- Opens a file on top of the open ones. -/
def openFile (p : Preprocessor) (name : String) (text : List Char) (files : List OpenFile)
    (stage : Stage) : Step :=
  p.doing (Context.keep (OpenFile.ofText name text p.context.conditionals.depth)) fun f c =>
    .more { p with context := c, files := f :: files, stage } []

/-- Includes a file, unless that is refused. -/
def includeFile (p : Preprocessor) (i : Inclusion) (files : List OpenFile) (stage : Stage) : Step :=
  let on := fun (c : Context) => { p with context := c, files, stage }
  p.doing (Context.enters p.env i) fun enters c =>
    if enters then
      if files.length < p.env.config.maxIncludeDepth then
        (on c).doing (Context.readIncluded p.env i) fun text c =>
          match text with
          | some text => (on c).openFile i.path text files stage
          | none => .more (on c) []
      else (on c).doing (Context.tooDeep p.env i) fun _ c => .more (on c) []
    else .more (on c) []

/-- Includes the first of the headers that come before the main file, or opens the main file. -/
def stepForced (p : Preprocessor) (todo : List Path) (file : String) (text : List Char) : Step :=
  match todo with
  | [] => p.openFile file text [] .main
  | header :: rest =>
    let name : HeaderName := ⟨header.toString, false⟩
    let stage := Stage.forced rest file text
    p.doing (Context.findHeader p.env file name) fun found c =>
      match found with
      | some path => { p with context := c }.includeFile { path, file, line := 0 } [] stage
      | none =>
        { p with context := c }.doing
          (Context.missingHeader p.env ⟨file, 0, .headerNotFound name⟩ ("-include " ++ name.path))
          fun _ c => .more { p with context := c, stage } []

/-- Expands the lines collected in the file `f`, in which the lines `lines` are left. -/
def flush (p : Preprocessor) (f : OpenFile) (lines : List (Noted (List Token)))
    (files : List OpenFile) : Step :=
  p.doing (Context.expand p.env false f.pending.reverse) fun out c =>
    .more { p with context := c, files := { f with lines, pending := [] } :: files } out

/-- Closes the file `f`. The main file, once closed, ends the run with its end token. -/
def close (p : Preprocessor) (f : OpenFile) (files : List OpenFile) : Step :=
  let closed := { p with files }
  closed.doing (do
    Context.keep ⟨(), f.closing⟩
    Context.closeGroups p.env f.name f.eof.line f.base) fun _ c =>
    -- Files that are included give no end token of their own.
    match files, p.stage with
    | [], .main => .more { closed with context := c, stage := .ended } [f.eof]
    | _, _ => .more { closed with context := c } []

/-- Takes the line `line` of the file `f`, after which the lines `lines` are left. A directive waits
until the lines collected before it are expanded. -/
def takeLine (p : Preprocessor) (f : OpenFile) (line : Noted (List Token))
    (lines : List (Noted (List Token))) (files : List OpenFile) : Step :=
  p.doing (Context.keep line) fun ts c =>
    let p := { p with context := c }
    if ts.head?.any Token.isHash then
      if f.pending.isEmpty then
        p.doing (Context.directive p.env f.base ts) fun wanted c =>
          let p := { p with context := c }
          let files := { f with lines } :: files
          match wanted with
          | none => .more { p with files } []
          | some i => p.includeFile i files p.stage
      -- The directive comes again once the lines before it are expanded; its notes are made.
      else p.flush f (pure ts :: lines) files
    else
      let pending := if p.context.conditionals.active then ts.reverse ++ f.pending else f.pending
      .more { p with files := { f with lines, pending } :: files } []

/-- Takes one step. -/
def step (p : Preprocessor) : Step :=
  match p.files with
  | [] =>
    match p.stage with
    | .forced todo file text => p.stepForced todo file text
    | _ => .done p
  | f :: files =>
    match f.lines with
    | line :: lines => p.takeLine f line lines files
    | [] => if f.pending.isEmpty then p.close f files else p.flush f [] files

end Preprocessor

end Preproc
