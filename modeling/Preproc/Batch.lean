import Preproc.Preprocessor.Run

/-!
# Several files

Each file is processed by a run of its own, so files share no macros, and a failure that concerns
only one file does not keep the others from being processed.
-/

namespace Preproc

/-- The outcome of processing one file. -/
structure FileResult where
  file : String
  /-- The tokens of the file, unless it failed. -/
  tokens : List Token
  diagnostics : List Diagnostic
  failure : Option Failure := none
deriving Repr

/-- What all files are processed with. -/
structure Job where
  config : Config
  disk : Disk
  now : Clock
deriving DecidableEq, Repr

namespace Job

/-- Processes one file. A failure that does not only concern the file ends the job. -/
def processFile (job : Job) (file : String) : Noted (Except Failure FileResult) :=
  let finished := (Preprocessor.ofConfig job.config job.disk job.now).runFile file
  let context := finished.last.context
  match finished.failure with
  | none => ⟨.ok ⟨file, finished.tokens, context.diagnostics, none⟩, context.notes.toList⟩
  | some cause =>
    if cause.isOfFile then
      ⟨.ok ⟨file, [], context.diagnostics, some cause⟩,
        context.notes.toList ++ [.failedFile file cause.message]⟩
    else ⟨.error cause, context.notes.toList⟩

/-- Processes the files one after the other. -/
def processFiles (job : Job) : List String → Noted (Except Failure (List FileResult))
  | [] => pure (.ok [])
  | file :: files => do
    Noted.note (.startingFile file)
    match ← job.processFile file with
    | .error cause => pure (.error cause)
    | .ok result =>
      match ← job.processFiles files with
      | .error cause => pure (.error cause)
      | .ok results => pure (.ok (result :: results))

end Job

end Preproc
