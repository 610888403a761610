import Preproc.CommandLine
import Std.Time

/-!
# The program

Reads the files that a command line depends on, and leaves the rest to `Options.run`.
-/

namespace Preproc.CommandLine

/-- The moment at which the program runs. -/
def readClock : IO Clock := do
  let now ← Std.Time.PlainDateTime.now
  return ⟨now.year.toInt.toNat, now.month.toNat, now.day.toNat, now.hour.toNat, now.minute.toNat,
    now.second.toNat⟩

/-- Adds what stands under the given names from the root, if there is something. -/
def load (disk : Disk) (parts : List String) : IO Disk := do
  let place := (← IO.currentDir) / ("/" ++ "/".intercalate parts)
  if ← place.isDir then return disk.addDirectories parts
  match ← (IO.FS.readBinFile place).toBaseIO with
  | .ok bytes => return disk.set parts (.file bytes.toList)
  | .error _ => return disk

/-- Adds all that a command depends on. What it depends on may become known only once the files that
it reads first are there. -/
partial def loadAll (o : Options) (now : Clock) (disk : Disk) (loaded : List (List String)) :
    IO Disk := do
  let places := (o.places disk now).filter fun parts => !loaded.contains parts
  if places.isEmpty then return disk
  loadAll o now (← places.foldlM load disk) (places ++ loaded)

end Preproc.CommandLine

open Preproc Preproc.CommandLine in
/-- Carries out a command line. -/
def main (args : List String) : IO UInt32 := do
  match Options.ofArguments args with
  | .error .helpWanted =>
    IO.print helpText
    return 0
  | .error e =>
    IO.eprintln e.line
    return 2
  | .ok o =>
    let now ← readClock
    let cwd := Path.ofString (← IO.currentDir).toString
    let disk ← loadAll o now (Disk.empty cwd) []
    match o.run disk now with
    | .error cause =>
      IO.eprintln cause.message
      return 1
    | .ok report =>
      IO.eprint report.notes
      IO.print report.output
      return report.status.toUInt32
