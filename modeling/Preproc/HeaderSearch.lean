import Preproc.Disk

/-!
# Finding headers

A header is looked for in the directory of the file that includes it, unless its name stands in
angle brackets, and then in the include paths. What was found, and what was not, is remembered.
-/

namespace Preproc

/-- What a search is for: the name of a header, the directory of the file that includes it, and
whether the name stands in angle brackets. -/
structure HeaderKey where
  target : String
  dir : String
  angle : Bool
deriving DecidableEq, Repr

/-- The include paths, and the results of earlier searches. -/
structure HeaderSearch where
  paths : List Path := []
  known : List (HeaderKey × Option String) := []
deriving DecidableEq, Repr

namespace HeaderSearch

/-- The paths at which a header may be, in order. -/
def candidates (h : HeaderSearch) (d : Disk) (key : HeaderKey) : List String :=
  ((if key.angle then [] else [Path.ofString key.dir]) ++ h.paths).map fun dir =>
    (Path.absolute d.cwd (dir.join key.target)).toString

/-- Looks for a header on the disk. -/
def search (h : HeaderSearch) (d : Disk) (key : HeaderKey) : Option String :=
  (h.candidates d key).find? d.isFile

/-- Finds a header as an earlier search did, or else on the disk. -/
def find (h : HeaderSearch) (d : Disk) (key : HeaderKey) : Option String × HeaderSearch :=
  match h.known.lookup key with
  -- An earlier result stands, whatever has become of the disk.
  | some result => (result, h)
  | none =>
    let result := h.search d key
    (result, { h with known := (key, result) :: h.known })

end HeaderSearch

end Preproc
