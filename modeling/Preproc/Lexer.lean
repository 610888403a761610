import Preproc.Lexeme
import Preproc.Source

/-!
# Cutting a source into tokens

A `Cursor` is a position in the logical text with what the next token has to know: whether white
space precedes it and whether it starts a logical line. `Source.tokens` moves a cursor over gap and
lexeme in turn until the text is used up, and ends with one end token. `Lexed.lines` groups the
tokens into logical lines.

The notes of a token are those made from the end of the previous token to its own end. A line is
known to be complete when the token after it has been read, so the notes of a line end with those
of the first token of the next.
-/

namespace Preproc

/-- A position in the logical text of a file. -/
structure Cursor where
  file : String
  /-- The text from here on. -/
  rest : List Char
  pos : Nat
  /-- The physical line of an offset at or before `pos`. -/
  ruler : Ruler
  /-- Whether white space was passed since the last token. -/
  prevWhite : Bool := false
  /-- Whether a line was started since the last token. -/
  bol : Bool := true
deriving DecidableEq, Repr

namespace Cursor

/-- The start of a source. -/
def ofSource (s : Source) : Cursor :=
  { file := s.file, rest := s.text, pos := 0, ruler := s.ruler }

/-- The cursor `n` characters further on. -/
def drop (c : Cursor) (n : Nat) : Cursor :=
  { c with rest := c.rest.drop n, pos := c.pos + n }

/-- Moves over white space and comments. -/
def skipGap (c : Cursor) : Noted Cursor :=
  let g := gapAt c.rest
  { value := { c.drop g.length with
      prevWhite := c.prevWhite || 0 < g.length
      bol := c.bol || g.newline }
    notes := g.openComment.toList.map fun n => .openComment c.file (c.ruler.seek (c.pos + n)).line }

/-- The note on what is wrong with a lexeme at `line`. -/
def flawNote (file : String) (line : Nat) : Flaw → Note
  | .openLiteral => .openLiteral file line
  | .openRawString => .openRawString file line

/-- Makes a token of the lexeme `x` at the cursor, and moves behind it. -/
def take (c : Cursor) (x : Lexeme) : Noted (Token × Cursor) :=
  let ruler := c.ruler.seek c.pos
  let place := ruler.place c.pos
  let token : Token :=
    { kind := x.kind
      value := String.ofList (c.rest.take x.length)
      file := c.file
      line := place.line
      col := place.col
      prevWhite := c.prevWhite
      bol := c.bol }
  { value := (token, { c.drop x.length with ruler := ruler, prevWhite := false, bol := false })
    notes := x.flaw.toList.map (flawNote c.file place.line) }

/-- The token that ends the stream, at the cursor. -/
def endToken (c : Cursor) : Token :=
  let place := (c.ruler.seek c.pos).place c.pos
  { kind := .eof
    value := ""
    file := c.file
    line := place.line
    col := place.col
    prevWhite := c.prevWhite }

@[simp]
theorem rest_drop (c : Cursor) (n : Nat) : (c.drop n).rest = c.rest.drop n := rfl

@[simp]
theorem rest_skipGap (c : Cursor) :
    c.skipGap.value.rest = c.rest.drop (gapAt c.rest).length := rfl

@[simp]
theorem rest_take (c : Cursor) (x : Lexeme) :
    (c.take x).value.2.rest = c.rest.drop x.length := rfl

end Cursor

/-- The tokens of a text with the notes made on each, and the token that ends them. -/
structure Lexed where
  tokens : List (Noted Token)
  eof : Noted Token
deriving Repr

/-- The tokens from the cursor on, after those already read, newest first. -/
def Cursor.tokens (c : Cursor) (before : List (Noted Token)) : Lexed :=
  let gap := c.skipGap
  if _h : gap.value.rest.isEmpty then
    { tokens := before.reverse, eof := ⟨gap.value.endToken, gap.notes⟩ }
  else
    let read := gap.value.take (lexemeAt gap.value.rest)
    read.value.2.tokens (⟨read.value.1, gap.notes ++ read.notes⟩ :: before)
termination_by c.rest.length
decreasing_by
  have hx := length_lexemeAt_pos c.skipGap.value.rest
  have hc : 0 < (c.rest.drop (gapAt c.rest).length).length :=
    List.length_pos_iff.2 (by simpa [gap] using _h)
  simp at hc hx ⊢
  omega

/-- The tokens of a source. -/
def Source.tokens (s : Source) : Lexed :=
  (Cursor.ofSource s).tokens []

/-- The tokens of a text that stands in `file`. -/
def lexText (file : String) (text : List Char) : Noted Lexed :=
  Source.tokens <$> Source.ofText file text

namespace Lexed

/-- The tokens without the one that ends them, and all notes. -/
def all (x : Lexed) : Noted (List Token) :=
  ⟨x.tokens.map (·.value), x.tokens.flatMap (·.notes) ++ x.eof.notes⟩

/-- Groups tokens into lines, given the line read so far, newest token first, and the notes made
since the last complete line. Ends with the notes made after the last line. -/
def groupLines (closing : List Note) (line : List Token) (notes : List Note) :
    List (Noted Token) → List (Noted (List Token)) × List Note
  | [] =>
    if line.isEmpty then ([], notes ++ closing) else ([⟨line.reverse, notes ++ closing⟩], [])
  | t :: ts =>
    -- Only now is the line known to be complete, so the notes of `t` are made before it is used.
    if t.value.bol && !line.isEmpty then
      let (lines, rest) := groupLines closing [t.value] [] ts
      (⟨line.reverse, notes ++ t.notes⟩ :: lines, rest)
    else groupLines closing (t.value :: line) (notes ++ t.notes) ts

/-- The logical lines, each with the notes made until it is known to be complete, and the notes made
after the last. -/
def lines (x : Lexed) : List (Noted (List Token)) × List Note :=
  groupLines x.eof.notes [] [] x.tokens

end Lexed

/-- The tokens of a text that stands in no file. -/
def relex (text : List Char) : Noted (List Token) := do
  let lexed ← lexText "Unknown" text
  lexed.all

end Preproc
