import Preproc.Path
import Preproc.Text.Charset
import Preproc.Text.Quoted

/-!
# Files

A disk holds files and directories under their names from the root, and has a current directory.
A path is followed name by name: each name but the last has to be a directory.

Every path can be examined. What makes a file system refuse even that is left out: names that are
too long, directories that may not be searched, and links that lead in circles.
-/

namespace Preproc

/-- What a name on a disk stands for. -/
inductive DiskEntry where
  | file (bytes : List UInt8)
  | directory
deriving DecidableEq, Repr

/-- Why a file cannot be read. -/
inductive ReadError where
  | notFound (path : String)
  | notDirectory (path : String)
  | isDirectory (path : String)
  | unknownCharset (name : String)
  /-- A text in UTF-16 does not start with a byte order mark. -/
  | noByteOrderMark
deriving DecidableEq, Repr

/-- The wording of a failure to read. -/
def ReadError.message : ReadError → String
  | notFound path => "[Errno 2] No such file or directory: " ++ Text.quoted path
  | notDirectory path => "[Errno 20] Not a directory: " ++ Text.quoted path
  | isDirectory path => "[Errno 21] Is a directory: " ++ Text.quoted path
  | unknownCharset name => s!"unknown encoding: {name}"
  | noByteOrderMark => "UTF-16 stream does not start with BOM"

/-- Whether the file itself cannot be read, not only its text. -/
def ReadError.isAccess : ReadError → Bool
  | notFound .. | notDirectory .. | isDirectory .. => true
  | _ => false

/-- The files and directories that a program sees. -/
structure Disk where
  /-- The current directory. -/
  cwd : Path
  /-- What stands under each list of names from the root. -/
  entries : List (List String × DiskEntry) := []
deriving DecidableEq, Repr

namespace Disk

/-- What stands under a list of names; the root is a directory. -/
def entry? (d : Disk) (parts : List String) : Option DiskEntry :=
  if parts.isEmpty then some .directory else d.entries.lookup parts

/-- Follows the names `rest` from what stands under `here`; `path` is the path that is followed. -/
def walk (d : Disk) (path : String) (here : List String) :
    List String → Except ReadError DiskEntry
  | [] =>
    match d.entry? here with
    | some e => .ok e
    | none => .error (.notFound path)
  | name :: rest =>
    match d.entry? here with
    | none => .error (.notFound path)
    | some (.file _) => .error (.notDirectory path)
    -- Only a directory leads further, even to itself or to the one above it.
    | some .directory =>
      if name = "" || name = "." then d.walk path here rest
      else if name = ".." then d.walk path here.dropLast rest
      else d.walk path (here ++ [name]) rest

/-- What a path leads to. -/
def follow (d : Disk) (path : String) : Except ReadError DiskEntry :=
  match path.toList with
  | [] => .error (.notFound path)
  | '/' :: cs => d.walk path [] (Path.components cs)
  | cs => d.walk path d.cwd.parts (Path.components cs)

/-- Whether a path leads to a file. This always has an answer, since every path can be examined. -/
def isFile (d : Disk) (path : String) : Bool :=
  match d.follow path with
  | .ok (.file _) => true
  | _ => false

/-- The text of the file that a path leads to, in the character set that goes by `charset`. -/
def read (d : Disk) (charset path : String) : Except ReadError (List Char) :=
  match d.follow path with
  | .error e => .error e
  | .ok .directory => .error (.isDirectory path)
  | .ok (.file bytes) =>
    match Charset.ofName? charset with
    | none => .error (.unknownCharset charset)
    | some c =>
      match c.decode? bytes with
      | none => .error .noByteOrderMark
      | some text => .ok text

/-- The names from the root of what a path stands for. -/
def partsOf (d : Disk) (path : String) : List String :=
  (Path.canonical d.cwd (Path.ofString path)).parts

/-- The disk with `e` under the given names. -/
def set (d : Disk) (parts : List String) (e : DiskEntry) : Disk :=
  { d with entries := (parts, e) :: d.entries.filter (·.1 ≠ parts) }

/-- The disk with all directories that the names lead through. -/
def addDirectories (d : Disk) (parts : List String) : Disk :=
  (List.range (parts.length + 1)).foldl (fun d n =>
    if (d.entry? (parts.take n)).isSome then d else d.set (parts.take n) .directory) d

/-- The disk with a directory under `path`, and those that lead to it. -/
def makeDirectory (d : Disk) (path : String) : Disk :=
  d.addDirectories (d.partsOf path)

/-- The disk with a file under `path`, and the directories that lead to it. -/
def write (d : Disk) (path : String) (bytes : List UInt8) : Disk :=
  let parts := d.partsOf path
  (d.addDirectories parts.dropLast).set parts (.file bytes)

/-- The disk without what stands under `path`. -/
def delete (d : Disk) (path : String) : Disk :=
  { d with entries := d.entries.filter (·.1 ≠ d.partsOf path) }

/-- The disk on which there is nothing but the current directory. -/
def empty (cwd : Path) : Disk :=
  ({ cwd } : Disk).addDirectories cwd.parts

end Disk

end Preproc
