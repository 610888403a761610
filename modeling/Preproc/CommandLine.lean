import Preproc.Batch
import Preproc.CommandLine.Options
import Preproc.Token.Layout

/-!
# The command line

Processes the files that a command line names and writes their tokens; notes are written apart.
-/

namespace Preproc.CommandLine

namespace Options

/-- The least rank of the notes that are written: warnings, unless more or less is asked for. -/
def noteRank (o : Options) : Nat :=
  let asked : Int := Severity.warning.rank + 10 * ((o.quiet : Int) - o.verbose)
  max Severity.debug.rank (min Severity.critical.rank asked.toNat)

/-- The value of an option as a setting: a missing one is an empty list. -/
def setting (value : Option String) : Setting :=
  value.elim (.list []) .text

/-- The settings of the runs. They are refused if a value is missing. -/
def config (o : Options) : Except ConfigError Config :=
  Config.ofSettings
    [("charset", setting o.charset),
     ("include_paths", .list (o.includePaths.map setting)),
     ("defines", .list (o.defines.map setting)),
     ("force_includes", .list (o.forceIncludes.map setting)),
     ("error_recovery", .flag (!o.strict))]

end Options

/-- What a command leaves: its status, its output and its notes. -/
structure Report where
  status : Nat
  output : String
  notes : String
deriving DecidableEq, Repr

/-- Why a command ends without a report. -/
inductive Breakdown where
  | settings (cause : ConfigError)
  /-- A failure that does not concern a single file. -/
  | failure (cause : Failure)

/-- The wording of the cause. -/
def Breakdown.message : Breakdown → String
  | settings cause => cause.message
  | failure cause => cause.message

/-- The text of a result: its tokens, unless it failed. -/
def resultText (r : FileResult) : String :=
  if r.failure.isSome then "" else layout r.tokens

/-- Processes the files. -/
def Options.run (o : Options) (disk : Disk) (now : Clock) : Except Breakdown Report := do
  let config ← o.config.mapError .settings
  let done := Job.processFiles ⟨config, disk, now⟩ o.inputs
  let results ← done.value.mapError .failure
  pure
    { status := if results.any (·.failure.isSome) then 1 else 0
      output := String.join (results.map resultText)
      notes := String.join ((done.notes.filter (·.reaches o.noteRank)).map Note.line) }

/-- The places on the disk that the command depends on, as names from the root: those of the inputs,
those at which headers are looked for, and the directories that lead there. -/
def Options.places (o : Options) (disk : Disk) (now : Clock) : List (List String) :=
  match o.config with
  | .error _ => []
  | .ok config =>
    let searched := o.inputs.flatMap fun file =>
      ((Preprocessor.ofConfig config disk now).runFile file).searched
    ((o.inputs ++ searched).flatMap fun path =>
      let parts := disk.partsOf path
      (List.range (parts.length + 1)).map parts.take).eraseDups

/-- The line that says why a command line is refused. -/
def UsageError.line (e : UsageError) : String :=
  "cxxpp: error: " ++ e.message

end Preproc.CommandLine
