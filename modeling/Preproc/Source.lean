import Preproc.Note
import Preproc.Text.Split

/-!
# Source text

A file is read as physical lines, whatever their endings. A physical line that ends in a backslash
is joined to the next; what remains is the logical text, which is cut into tokens. Each offset in
the logical text belongs to one physical line, so tokens are located where they were written.
-/

namespace Preproc

/-- The text with every line ending as one newline. -/
def normalizeNewlines : List Char → List Char
  | '\r' :: '\n' :: cs => '\n' :: normalizeNewlines cs
  | '\r' :: cs => '\n' :: normalizeNewlines cs
  | c :: cs => c :: normalizeNewlines cs
  | [] => []

/-- The physical lines of a text, without their newlines. -/
def physicalLines (cs : List Char) : List (List Char) :=
  Text.splitAt '\n' (normalizeNewlines cs)

/-- Whether a physical line is joined to the next. -/
def isSpliced (line : List Char) : Bool :=
  line.getLast? = some '\\'

/-- What each physical line contributes to the logical text: a line that ends in a backslash loses
it, any other but the last gains a newline. -/
def logicalPieces : List (List Char) → List (List Char)
  | [] => []
  | [l] => [if isSpliced l then l.dropLast else l]
  | l :: ls => (if isSpliced l then l.dropLast else l ++ ['\n']) :: logicalPieces ls

/-- The offset at which each piece starts, the first at `n`. -/
def offsetsFrom (n : Nat) : List (List Char) → List Nat
  | [] => []
  | p :: ps => n :: offsetsFrom (n + p.length) ps

/-- The logical text of a file, and the offset in it at which each physical line starts. -/
structure Source where
  file : String
  text : List Char
  starts : List Nat
deriving DecidableEq, Repr

namespace Source

/-- Joins the physical lines of a file; a backslash at its very end joins nothing. -/
def ofText (file : String) (cs : List Char) : Noted Source :=
  let lines := physicalLines cs
  let pieces := logicalPieces lines
  { value := ⟨file, pieces.flatten, offsetsFrom 0 pieces⟩
    notes := if lines.getLast?.any isSpliced then [.spliceAtEnd file] else [] }

end Source

/-- A place in a physical file: a line counted from one and a column counted from zero. -/
structure Place where
  line : Nat
  col : Nat
deriving DecidableEq, Repr

/-- A physical line: its number, the offset at which it starts, and the starts of those after it. -/
structure Ruler where
  line : Nat
  start : Nat
  later : List Nat
deriving DecidableEq, Repr

namespace Ruler

/-- The last of the lines from here on that starts at or before `pos`. -/
def seek (r : Ruler) (pos : Nat) : Ruler :=
  go r.line r.start r.later
where
  go (line start : Nat) : List Nat → Ruler
    | [] => ⟨line, start, []⟩
    | s :: later => if s ≤ pos then go (line + 1) s later else ⟨line, start, s :: later⟩

/-- Where `pos` is, as a place of this line. -/
def place (r : Ruler) (pos : Nat) : Place :=
  ⟨r.line, pos - r.start⟩

end Ruler

namespace Source

/-- The first physical line. -/
def ruler (s : Source) : Ruler :=
  ⟨1, 0, s.starts.tail⟩

/-- The physical place of an offset in the logical text. -/
def locate (s : Source) (pos : Nat) : Place :=
  (s.ruler.seek pos).place pos

end Source

end Preproc
