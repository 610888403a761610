import Preproc.Conditional
import Preproc.Config
import Preproc.Diagnostic
import Preproc.HeaderSearch

/-!
# What a run knows

The macros that are defined, the groups that are open, the headers that were found, the files that
are included only once, and the problems reported so far; and how a directive changes them. A
directive that includes a file only says which: opening it is up to the run.
-/

namespace Preproc

/-- What stays the same during a run. -/
structure Environment where
  config : Config
  disk : Disk
  /-- How deeply the host lets expressions be nested in one another, and arguments that are
  expanded. -/
  nesting : Nat := defaultNesting
deriving DecidableEq, Repr

/-- What changes during a run. -/
structure Context where
  macros : MacroTable
  headers : HeaderSearch
  conditionals : Conditionals := {}
  diagnostics : List Diagnostic := []
  /-- The files that are not to be included again. -/
  once : List String := []
  notes : Array Note := #[]
deriving DecidableEq, Repr

/-- A computation that changes what is known and may end the run. -/
abbrev ContextM := EStateM Failure Context

namespace ContextM

variable {α β : Type} {x : ContextM α} {f : α → ContextM β}

@[simp]
theorem get_bind (g : Context → ContextM β) (c : Context) :
    ((get : ContextM Context) >>= g) c = g c c := rfl

@[simp]
theorem set_bind (c' : Context) (g : PUnit → ContextM β) (c : Context) :
    ((set c' : ContextM PUnit) >>= g) c = g ⟨⟩ c' := rfl

theorem bind_of_ok {c c₁ : Context} {a : α} (h : x c = .ok a c₁) : (x >>= f) c = f a c₁ := by
  show EStateM.bind x f c = f a c₁
  unfold EStateM.bind
  rw [h]

theorem bind_of_error {c c₁ : Context} {e : Failure} (h : x c = .error e c₁) :
    (x >>= f) c = .error e c₁ := by
  show EStateM.bind x f c = .error e c₁
  unfold EStateM.bind
  rw [h]

/-- A sequence succeeds exactly if both its parts do. -/
theorem bind_eq_ok_iff {c c₂ : Context} {b : β} :
    (x >>= f) c = .ok b c₂ ↔ ∃ a c₁, x c = .ok a c₁ ∧ f a c₁ = .ok b c₂ := by
  constructor
  · intro h
    cases hx : x c with
    | ok a c₁ => exact ⟨a, c₁, rfl, (bind_of_ok hx).symm.trans h⟩
    | error e c₁ =>
      rw [bind_of_error hx] at h
      cases h
  · rintro ⟨a, c₁, hx, hf⟩
    exact (bind_of_ok hx).trans hf

end ContextM

/-- A file that is to be included, and where that is asked for. -/
structure Inclusion where
  path : String
  file : String
  line : Nat
  /-- Whether the file is not to be included again. -/
  once : Bool := false
deriving DecidableEq, Repr

namespace Context

/-- Keeps the notes of a value. -/
def keep {α : Type} (x : Noted α) : ContextM α := do
  modify fun c => { c with notes := c.notes ++ x.notes.toArray }
  pure x.value

/-- Makes one note. -/
def note (n : Note) : ContextM Unit :=
  modify fun c => { c with notes := c.notes.push n }

/-- Reports a problem. -/
def report (d : Diagnostic) : ContextM Unit :=
  modify fun c => { c with diagnostics := c.diagnostics ++ [d] }

/-- Notes and reports a problem. -/
def remark (d : Diagnostic) : ContextM Unit := do
  note (.problem d.file d.line d.problem.message)
  report d

/-- Reports that groups do not match, which ends a run that does not recover. -/
def unbalanced (env : Environment) (d : Diagnostic) : ContextM Unit := do
  remark d
  if !env.config.errorRecovery then throw (.unbalanced d)

/-- Reports that a header is missing, which ends a run that does not recover; `spelling` is the line
that asks for it. -/
def missingHeader (env : Environment) (d : Diagnostic) (spelling : String) : ContextM Unit := do
  note (.missingHeader d.file d.line d.problem.message spelling)
  report d
  if !env.config.errorRecovery then throw (.headerNotFound d)

/-! ## Files -/

/-- The one name of a file. -/
def canonicalName (env : Environment) (file : String) : String :=
  (Path.canonical env.disk.cwd (Path.ofString file)).toString

/-- Whether a file is not to be included again. -/
def isOnce (env : Environment) (file : String) (c : Context) : Bool :=
  c.once.contains (canonicalName env file)

/-- Lets a file not be included again. -/
def markOnce (env : Environment) (file : String) : ContextM Unit :=
  modify fun c => { c with once := canonicalName env file :: c.once }

/-- Looks for a header that is asked for in `file`. -/
def lookForHeader (env : Environment) (file : String) (name : HeaderName) (c : Context) :
    Option String × Context :=
  let dir := (Path.ofString file).parent.toString
  let (found, headers) := c.headers.find env.disk ⟨name.path, dir, name.system⟩
  (found, { c with headers })

/-- Finds a header that is asked for in `file`. -/
def findHeader (env : Environment) (file : String) (name : HeaderName) :
    ContextM (Option String) :=
  modifyGet (lookForHeader env file name)

/-! ## Expansion and conditions -/

/-- Expands tokens with the macros that are defined. -/
def expand (env : Environment) (condition : Bool) (ts : List Token) : ContextM (List Token) := do
  let c ← get
  let expansion : Expansion :=
    { macros := c.macros
      maxDepth := env.config.maxExpansionDepth
      maxTokens := env.config.maxExpansionTokens
      condition
      nesting := env.nesting }
  let after := fun (x : Expander) =>
    { c with macros := { c.macros with count := x.count }, notes := x.notes }
  match ({ count := c.macros.count, notes := c.notes } : Expander).expand expansion ts with
  | .ok out x =>
    set (after x)
    pure out
  | .error cause x =>
    set (after x)
    if cause.isReported then
      report ⟨ts.head?.elim "" (·.file), ts.head?.elim 0 (·.line), .expansion cause⟩
    throw (.expansion cause)

/-- The answer to a question that a condition in `file` asks. -/
def answer (env : Environment) (file : String) (c : Context) : Query → Bool × Context
  | .defined name => (c.macros.isDefined name, c)
  | .header name =>
    let (found, c) := lookForHeader env file name c
    (found.isSome, c)

/-- Whether a condition in `file` holds. -/
def test (env : Environment) (file : String) (condition : List Token) : ContextM Bool := do
  -- The operands of the operators must not be expanded, so the operators are answered first.
  let clauses ← keep (splitQueries condition)
  let (ts, c) := answerQueries (answer env file) (← get) clauses
  set c
  match ← keep (holds env.nesting (← expand env true ts)) with
  | .ok b => pure b
  | .error _ => throw .codeOverflow

/-! ## Conditional directives -/

/-- Opens a group; its condition is tested if it matters. -/
def openGroup (condition : ContextM Bool) : ContextM Unit := do
  let holds ← if (← get).conditionals.opensTested then condition else pure false
  modify fun c => { c with conditionals := c.conditionals.openGroup holds }

/-- Whether the innermost group was opened in the file of the directive `d`, in which `base` groups
were open at the start; if not, the directive is out of place. -/
def closesGroup (env : Environment) (base : Nat) (d : DirectiveLine) : ContextM Bool := do
  if base < (← get).conditionals.depth then pure true
  else
    unbalanced env ⟨d.file, d.line, .withoutIf d.directive.label⟩
    pure false

/-- Takes over what has become of the open groups. -/
def setConditionals (next : Option (Noted Conditionals)) : ContextM Unit := do
  match next with
  | none => pure ()
  | some x =>
    let conditionals ← keep x
    modify fun c => { c with conditionals }

/-- Starts a further branch; its condition is tested if it matters. -/
def elifBranch (condition : ContextM Bool) : ContextM Unit := do
  let holds ← if (← get).conditionals.elifTested then condition else pure false
  setConditionals ((← get).conditionals.elif? holds)

/-- Whether a test for a name holds with the macros that are defined. -/
def nameTest (holds : (String → Bool) → Option Token → Bool) (name : Option Token) :
    ContextM Bool := do
  pure (holds (← get).macros.isDefined name)

/-! ## Other directives -/

/-- Finds the file that an include directive asks for. -/
def inclusion? (env : Environment) (d : DirectiveLine) (target : IncludeTarget) (once : Bool) :
    ContextM (Option Inclusion) := do
  let name? ← match target with
    | .header name => pure (some name)
    | .computed ts =>
      match readHeaderName (← expand env false ts) with
      | .ok (name, _) => pure (some name)
      | .error _ =>
        note (.badInclude d.file d.line d.spelling)
        pure none
  match name? with
  | none => pure none
  | some name =>
    match ← findHeader env d.file name with
    | some path => pure (some { path, file := d.file, line := d.line, once })
    | none =>
      missingHeader env ⟨d.file, d.line, .headerNotFound name⟩ d.spelling
      pure none

/-- Carries out a directive in a file in which `base` groups were open at the start. -/
def carryOut (env : Environment) (base : Nat) (d : DirectiveLine) :
    ContextM (Option Inclusion) := do
  match d.directive with
  | .define name params body =>
    let m ← keep (Macro.ofDefinition name.value (params.map (·.map (·.value))) body)
    modify fun c => { c with macros := c.macros.define m }
    pure none
  | .undef name =>
    modify fun c => { c with macros := c.macros.undefine name.value }
    pure none
  | .ifTrue condition =>
    openGroup (test env d.file condition)
    pure none
  | .ifdef name =>
    openGroup (nameTest Directive.testDefined name)
    pure none
  | .ifndef name =>
    openGroup (nameTest Directive.testUndefined name)
    pure none
  | .elifTrue condition =>
    if ← closesGroup env base d then elifBranch (test env d.file condition)
    pure none
  | .elifdef name =>
    if ← closesGroup env base d then elifBranch (nameTest Directive.testDefined name)
    pure none
  | .elifndef name =>
    if ← closesGroup env base d then elifBranch (nameTest Directive.testUndefined name)
    pure none
  | .otherwise =>
    if ← closesGroup env base d then setConditionals (← get).conditionals.otherwise?
    pure none
  | .endif =>
    if ← closesGroup env base d then
      setConditionals ((← get).conditionals.endif?.map fun c => ⟨c, []⟩)
    pure none
  | .pragma args =>
    if Directive.asksOnce args then markOnce env d.file
    pure none
  | .other =>
    note (.ignoredDirective d.spelling)
    pure none
  | .inclusion target once => inclusion? env d target once

/-- Reads and carries out a line that starts with `#`. In a skipped group only conditional
directives count. -/
def directive (env : Environment) (base : Nat) (line : List Token) :
    ContextM (Option Inclusion) := do
  let skipping := !(← get).conditionals.active
  match ← keep (parseLine skipping line) with
  | .error _ =>
    note (.notDirective (line.head?.elim "" (·.file)) (line.head?.elim 0 (·.line)))
    pure none
  | .ok (d, _) => if skipping && !d.directive.isConditional then pure none else carryOut env base d

/-- Closes the groups that a file leaves open, and reports them at `line`, its end. -/
def closeGroups (env : Environment) (file : String) (line base : Nat) : ContextM Unit := do
  let (closed, conditionals) := (← get).conditionals.truncate base
  modify fun c => { c with conditionals }
  if 0 < closed then unbalanced env ⟨file, line, .unterminated closed⟩

/-- Whether a file that is to be included is processed: not if it is included only once and has
been. If so, and it is not to be included again, that is remembered. -/
def enters (env : Environment) (i : Inclusion) : ContextM Bool := do
  if isOnce env i.path (← get) then pure false
  else
    -- This holds even if the file turns out to be nested too deeply, or unreadable.
    if i.once then markOnce env i.path
    pure true

/-- Reports that a file is not included because too many files are open. -/
def tooDeep (env : Environment) (i : Inclusion) : ContextM Unit :=
  remark ⟨i.file, i.line, .nestedTooDeeply env.config.maxIncludeDepth⟩

/-- The text of a file that is to be included; if it cannot be read, that is reported. -/
def readIncluded (env : Environment) (i : Inclusion) : ContextM (Option (List Char)) := do
  match env.disk.read env.config.charset i.path with
  | .ok text => pure (some text)
  | .error cause =>
    -- A file that is there but has no text in the character set ends the run.
    if cause.isAccess then
      remark ⟨i.file, i.line, .unreadable i.path cause⟩
      pure none
    else throw (.unreadable cause)

end Context

/-- What is known before a run starts: the predefined macros, and those that the settings define. A
definition that cannot be read is noted. -/
def Context.start (config : Config) (now : Clock) : Context :=
  let fresh : Context :=
    { macros := MacroTable.predefined now, headers := { paths := config.includePaths } }
  (config.globalDefines ++ config.defines).foldl (fun c definition =>
    let read := Macro.ofText definition
    let c := { c with notes := c.notes ++ read.notes.toArray }
    match read.value with
    | .ok m => { c with macros := c.macros.define m }
    | .error _ => { c with notes := c.notes.push (.badDefinition definition) }) fresh

end Preproc
