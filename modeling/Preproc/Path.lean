import Preproc.Text.Split

/-!
# Paths

A path is a list of names from a root or from the current directory. Empty names and single dots
make no difference and are dropped; double dots are kept until a path is made absolute.
-/

namespace Preproc

/-- A path in normal form. -/
structure Path where
  /-- The number of slashes that the path starts with: none, one, or exactly two. -/
  slashes : Nat := 0
  parts : List String := []
deriving DecidableEq, Repr

namespace Path

/-- The names between the slashes of a text. -/
def components (cs : List Char) : List String :=
  (Text.splitAt '/' cs).map String.ofList

/-- The path that a text stands for. Three slashes or more at its start count as one. -/
def ofString (s : String) : Path :=
  let leading := (s.toList.takeWhile (· = '/')).length
  { slashes := if leading = 2 then 2 else min leading 1
    parts := (components s.toList).filter fun name => name ≠ "" && name ≠ "." }

/-- The text of a path; a path without names from the current directory is a dot. -/
protected def toString (p : Path) : String :=
  if p.slashes = 0 && p.parts.isEmpty then "."
  else String.ofList (List.replicate p.slashes '/') ++ "/".intercalate p.parts

/-- The path without its last name. -/
def parent (p : Path) : Path :=
  { p with parts := p.parts.dropLast }

/-- The path `target` seen from `p`. -/
def join (p : Path) (target : String) : Path :=
  let q := ofString target
  if q.slashes = 0 then { p with parts := p.parts ++ q.parts } else q

/-- The names with each pair of double dots and the name before it dropped. -/
def resolveDots (parts : List String) : List String :=
  (parts.foldl (fun above name => if name = ".." then above.tail else name :: above) []).reverse

/-- The path from the root, seen from the directory `cwd`. -/
def absolute (cwd p : Path) : Path :=
  if p.slashes = 0 then ⟨cwd.slashes, resolveDots (cwd.parts ++ p.parts)⟩
  else ⟨p.slashes, resolveDots p.parts⟩

/-- The one path from the root that stands for the same file. -/
def canonical (cwd p : Path) : Path :=
  { absolute cwd p with slashes := 1 }

end Path

end Preproc
