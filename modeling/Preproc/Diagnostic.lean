import Preproc.Condition
import Preproc.Disk
import Preproc.Expansion

/-!
# Diagnostics

Problems of the input that a run reports, and failures that end it.
-/

namespace Preproc

/-- What a diagnostic is about. -/
inductive Topic where
  | conditional
  | inclusion
  | expansion
deriving DecidableEq, Repr

/-- A problem of the input. -/
inductive Problem where
  /-- A directive continues or closes a group that is not open in its file. -/
  | withoutIf (directive : String)
  /-- Groups are still open at the end of a file. -/
  | unterminated (count : Nat)
  | headerNotFound (name : HeaderName)
  | nestedTooDeeply (limit : Nat)
  | unreadable (path : String) (cause : ReadError)
  | expansion (cause : ExpansionError)
deriving DecidableEq, Repr

namespace Problem

/-- What the problem is about. -/
def topic : Problem → Topic
  | withoutIf .. | unterminated .. => .conditional
  | headerNotFound .. | nestedTooDeeply .. | unreadable .. => .inclusion
  | expansion .. => .expansion

/-- The wording of the problem. -/
def message : Problem → String
  | withoutIf directive => s!"#{directive} without #if"
  | unterminated count => s!"{count} unterminated conditional directive(s)"
  | headerNotFound name =>
    (if name.system then "system" else "user") ++ s!" include '" ++ name.path ++ "' not found"
  | nestedTooDeeply limit => s!"#include nested too deeply ({limit})"
  | unreadable path cause => s!"cannot read '{path}': " ++ cause.message
  | expansion cause => cause.message

end Problem

/-- A problem at a line of a file. -/
structure Diagnostic where
  file : String
  line : Nat
  problem : Problem
deriving DecidableEq, Repr

/-- The diagnostic as one line. -/
def Diagnostic.text (d : Diagnostic) : String :=
  s!"{d.file}:{d.line}: " ++ d.problem.message

/-- What ends a run before its input is used up. -/
inductive Failure where
  | expansion (cause : ExpansionError)
  /-- Conditional groups do not match, and the run does not recover. -/
  | unbalanced (d : Diagnostic)
  /-- A header is missing, and the run does not recover. -/
  | headerNotFound (d : Diagnostic)
  /-- The code of a character in a condition does not fit a word. -/
  | codeOverflow
  /-- A file cannot be read. -/
  | unreadable (cause : ReadError)
  /-- A run was started before. -/
  | alreadyStarted
deriving DecidableEq, Repr

namespace Failure

/-- The wording of the failure. -/
def message : Failure → String
  | expansion cause => cause.message
  | unbalanced d | headerNotFound d => d.text
  | codeOverflow => ConstantError.codeOverflow.message
  | unreadable cause => cause.message
  | alreadyStarted => "A Preprocessor can only process one file."

/-- Whether the failure concerns only the file being processed, so that other files can go on. -/
def isOfFile : Failure → Bool
  | expansion cause => cause.isReported
  | unbalanced .. | headerNotFound .. => true
  | unreadable cause => cause.isAccess
  | codeOverflow | alreadyStarted => false

end Failure

end Preproc
