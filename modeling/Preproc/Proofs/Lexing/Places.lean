import Mathlib.Data.List.Chain
import Preproc.Proofs.Lexing.Readings

/-!
# Places

A token is placed where its first character stands in the physical lines. Its place is found from
an offset in the logical text: the physical line is the last one that starts at or before it. Lines
that consist of a backslash alone contribute nothing to the logical text, so that several lines may
start at one offset; of these the last is meant, for the others hold no character of it.

A ruler moves over the lines while the text is cut into tokens, and never back. That it stands at
some line of the text is kept by every step; so places are physical, and increase.

## Key results

- `Ruler.On.seek`: a ruler is moved to the last line that starts at or before an offset
- `Cursor.Stands.tokens`: what the tokens from a cursor on say of their places
- `tokens_placed`: tokens are placed where they stand in the physical lines, in increasing order
-/

namespace Preproc

/-! ## Pieces and lines -/

/-- Each physical line contributes one piece to the logical text. -/
private theorem length_logicalPieces (lines : List (List Char)) :
    (logicalPieces lines).length = lines.length := by
  fun_induction logicalPieces lines with
  | case1 => rfl
  | case2 => rfl
  | case3 line lines _ ih => rw [List.length_cons, ih, List.length_cons]

/-- A physical line contributes its start to the logical text, or itself and a newline. -/
private theorem prefix_of_logicalPieces {lines : List (List Char)} {i : Nat} {piece : List Char}
    (h : (logicalPieces lines)[i]? = some piece) :
    ∃ line, lines[i]? = some line ∧ piece <+: line ++ ['\n'] := by
  -- Without its backslash a line is a start of itself.
  have hdropped : ∀ line : List Char, line.dropLast <+: line ++ ['\n'] := fun line =>
    (List.dropLast_prefix line).trans (List.prefix_append line _)
  fun_induction logicalPieces lines generalizing i with
  | case1 => cases h
  | case2 line =>
    obtain ⟨rfl, rfl⟩ : i = 0 ∧ (if isSpliced line then line.dropLast else line) = piece := by
      simpa [List.getElem?_singleton] using h
    refine ⟨line, rfl, ?_⟩
    split
    · exact hdropped line
    · exact List.prefix_append line _
  | case3 line lines _ ih =>
    cases i with
    | zero =>
      obtain rfl := Option.some.inj h
      refine ⟨line, rfl, ?_⟩
      split
      · exact hdropped line
      · exact List.prefix_rfl
    | succ i => exact ih h

/-- The characters of the logical text, newlines apart, stand where they stood in their lines. -/
private theorem getElem?_of_logicalPieces {lines : List (List Char)} {i j : Nat} {piece : List Char}
    {c : Char} (hpiece : (logicalPieces lines)[i]? = some piece) (hc : piece[j]? = some c)
    (hnewline : c ≠ '\n') : ∃ row, lines[i]? = some row ∧ row[j]? = some c := by
  obtain ⟨row, hrow, rest, hrest⟩ := prefix_of_logicalPieces hpiece
  refine ⟨row, hrow, ?_⟩
  have hj := (List.getElem?_eq_some_iff.1 hc).1
  -- The piece is a start of its line with a newline behind.
  have happend : (row ++ ['\n'])[j]? = some c := by
    rw [← hrest, List.getElem?_append_left hj, hc]
  by_cases hlt : j < row.length
  · rwa [List.getElem?_append_left hlt] at happend
  · rw [List.getElem?_append_right (by omega), List.getElem?_singleton] at happend
    split at happend
    · exact absurd (Option.some.inj happend).symm hnewline
    · cases happend

/-! ## The ruler -/

namespace Ruler

/-- On the last line a ruler stays. -/
private theorem seek_last {r : Ruler} (h : r.later = []) (pos : Nat) : r.seek pos = r := by
  rw [seek, h]
  exact congrArg (mk r.line r.start) h.symm

/-- A ruler stays if the next line starts behind the offset. -/
private theorem seek_here {r : Ruler} {s pos : Nat} {later : List Nat} (h : r.later = s :: later)
    (hpos : pos < s) : r.seek pos = r := by
  rw [seek, h, seek.go, if_neg (by omega)]
  exact congrArg (mk r.line r.start) h.symm

/-- A ruler moves on if the next line starts at or before the offset. -/
private theorem seek_later {r : Ruler} {s pos : Nat} {later : List Nat} (h : r.later = s :: later)
    (hpos : s ≤ pos) : r.seek pos = (⟨r.line + 1, s, later⟩ : Ruler).seek pos := by
  rw [seek, h, seek.go, if_pos hpos]
  rfl

/-- The ruler stands at the piece `piece` of a text, behind the pieces `before`. -/
structure On (r : Ruler) (before : List (List Char)) (piece : List Char)
    (after : List (List Char)) : Prop where
  line : r.line = before.length + 1
  start : r.start = before.flatten.length
  later : r.later = offsetsFrom (r.start + piece.length) after

/-- A ruler is moved to the last piece that starts at or before an offset: it stays where it is, or
comes to a later line. -/
theorem On.seek {r : Ruler} {before after : List (List Char)} {piece : List Char}
    (h : r.On before piece after) {pos : Nat} (hpos : r.start ≤ pos) :
    ∃ before' piece' after', before ++ piece :: after = before' ++ piece' :: after' ∧
      (r.seek pos).On before' piece' after' ∧ (r.seek pos).start ≤ pos ∧
      (after' ≠ [] → pos < (r.seek pos).start + piece'.length) ∧
      (r.seek pos = r ∨ r.line < (r.seek pos).line) := by
  induction after generalizing r before piece with
  | nil =>
    rw [seek_last h.later]
    exact ⟨before, piece, [], rfl, h, hpos, by simp, .inl rfl⟩
  | cons next after ih =>
    by_cases hmore : r.start + piece.length ≤ pos
    · -- The next line starts at or before the offset as well.
      have hnext : On ⟨r.line + 1, r.start + piece.length,
          offsetsFrom (r.start + piece.length + next.length) after⟩ (before ++ [piece]) next
          after :=
        ⟨by simp [h.line], by simp [h.start], rfl⟩
      obtain ⟨before', piece', after', hsplit, hon, hle, hlt, hmoved⟩ := ih hnext hmore
      rw [seek_later h.later hmore]
      refine ⟨before', piece', after', by simpa using hsplit, hon, hle, hlt, .inr ?_⟩
      rcases hmoved with hsame | hlater
      · rw [hsame]
        exact Nat.lt_succ_self _
      · exact Nat.lt_of_succ_lt hlater
    · rw [seek_here h.later (by omega)]
      exact ⟨before, piece, next :: after, rfl, h, hpos, fun _ => by omega, .inl rfl⟩

end Ruler

/-! ## The cursor -/

/-- A place comes before another: on an earlier line, or on the same line further left. -/
def Place.Precedes (p q : Place) : Prop :=
  p.line < q.line ∨ p.line = q.line ∧ p.col < q.col

/-- The cursor stands in the text made of `pieces`, and its ruler at a piece that starts at or
before its position. -/
structure Cursor.Stands (c : Cursor) (pieces : List (List Char)) : Prop where
  rest : c.rest = pieces.flatten.drop c.pos
  ruler : ∃ before piece after, pieces = before ++ piece :: after ∧ c.ruler.On before piece after
  start : c.ruler.start ≤ c.pos

namespace Cursor

/-- Where the cursor stands, as a place of a physical line. -/
def place (c : Cursor) : Place :=
  (c.ruler.seek c.pos).place c.pos

namespace Stands

variable {c : Cursor} {pieces : List (List Char)}

/-- Moving over a gap, a cursor stands in the same text. -/
theorem skipGap (h : c.Stands pieces) : c.skipGap.value.Stands pieces := by
  refine ⟨?_, h.ruler, Nat.le_add_right_of_le h.start⟩
  rw [rest_skipGap, h.rest, List.drop_drop, ← h.rest]
  rfl

/-- Behind a token that it takes, a cursor stands in the same text. -/
theorem take (h : c.Stands pieces) (x : Lexeme) : (c.take x).value.2.Stands pieces := by
  obtain ⟨before, piece, after, rfl, hon⟩ := h.ruler
  obtain ⟨before', piece', after', hsplit, hon', hle, -⟩ := hon.seek h.start
  refine ⟨?_, ⟨before', piece', after', hsplit, hon'⟩, Nat.le_add_right_of_le hle⟩
  rw [rest_take, h.rest, List.drop_drop]
  rfl

/-- The line that a position is found on starts at or before it. -/
private theorem start_seek_le (h : c.Stands pieces) : (c.ruler.seek c.pos).start ≤ c.pos := by
  obtain ⟨before, piece, after, -, hon⟩ := h.ruler
  obtain ⟨-, -, -, -, -, hle, -⟩ := hon.seek h.start
  exact hle

/-- The place of a cursor is that of the next character in its piece. -/
private theorem getElem?_place (h : c.Stands pieces) {d : Char} {rest : List Char}
    (hrest : c.rest = d :: rest) :
    1 ≤ c.place.line ∧ ∃ piece, pieces[c.place.line - 1]? = some piece ∧
      piece[c.place.col]? = some d := by
  obtain ⟨before, piece, after, rfl, hon⟩ := h.ruler
  obtain ⟨before', piece', after', hsplit, hon', hle, hlt, -⟩ := hon.seek h.start
  have hline : c.place.line = before'.length + 1 := hon'.line
  have hcol : c.place.col = c.pos - before'.flatten.length := by rw [← hon'.start]; rfl
  rw [hon'.start] at hle hlt
  have hnext : (before ++ piece :: after).flatten[c.pos]? = some d := by
    rw [← Nat.add_zero c.pos, ← List.getElem?_drop, ← h.rest, hrest, List.getElem?_cons_zero]
  rw [hsplit, List.flatten_append, List.flatten_cons, List.getElem?_append_right hle] at hnext
  refine ⟨by omega, piece', by simp [hsplit, hline], ?_⟩
  rw [hcol]
  -- The position lies within the piece, which has to be shown unless it is the last.
  by_cases hlast : after' = []
  · simpa [hlast] using hnext
  · rwa [List.getElem?_append_left (by have := hlt hlast; omega)] at hnext

/-- At the end of the text a cursor is placed on the last line. -/
private theorem line_place (h : c.Stands pieces) (hrest : c.rest = []) :
    c.place.line = pieces.length := by
  obtain ⟨before, piece, after, rfl, hon⟩ := h.ruler
  obtain ⟨before', piece', after', hsplit, hon', hle, hlt, -⟩ := hon.seek h.start
  have hend : (before ++ piece :: after).flatten.length ≤ c.pos := by
    rw [← List.drop_eq_nil_iff, ← h.rest, hrest]
  rw [hsplit, List.flatten_append, List.flatten_cons, List.length_append, List.length_append,
    ← hon'.start] at hend
  -- Were there a piece behind this one, the position would lie within this one.
  have hlast : after' = [] := by
    by_contra hmore
    have := hlt hmore
    omega
  rw [hsplit, hlast, List.length_append]
  exact hon'.line

/-- What stands on the line of a cursor's ruler before the cursor precedes its place. -/
theorem precedes (h : c.Stands pieces) {pos : Nat} (hstart : c.ruler.start ≤ pos)
    (hpos : pos < c.pos) : (c.ruler.place pos).Precedes c.place := by
  obtain ⟨before, piece, after, -, hon⟩ := h.ruler
  obtain ⟨-, -, -, -, -, -, -, hmoved⟩ := hon.seek h.start
  rw [place]
  rcases hmoved with hsame | hlater
  · rw [hsame]
    exact .inr ⟨rfl, Nat.sub_lt_sub_right hstart hpos⟩
  · exact .inl hlater

end Stands

end Cursor

/-! ## The tokens -/

/-- The place of a token. -/
def Token.place (t : Token) : Place :=
  ⟨t.line, t.col⟩

/-- The first character of the token stands at its place in the `pieces`. -/
def Token.Written (t : Token) (pieces : List (List Char)) : Prop :=
  1 ≤ t.line ∧ ∃ piece d, pieces[t.line - 1]? = some piece ∧ piece[t.col]? = some d ∧ d ≠ '\n' ∧
    t.value.toList.head? = some d

/-- Tokens and the one that ends them are placed in the text made of `pieces`, from `first` on. -/
structure PlacedFrom (pieces : List (List Char)) (first : Place) (tokens : List Token)
    (eof : Token) : Prop where
  written : ∀ t ∈ tokens, t.Written pieces
  increasing : ((tokens ++ [eof]).map Token.place).IsChain Place.Precedes
  first : ((tokens ++ [eof]).map Token.place).head? = some first
  last : eof.line = pieces.length

namespace Cursor.Stands

variable {c : Cursor} {pieces : List (List Char)}

/-- A token is taken where a character that is no newline stands at the cursor. -/
theorem written (h : c.Stands pieces) (hstarts : Trivia.starts c.rest = false)
    (hrest : c.rest ≠ []) :
    (c.take (lexemeAt c.rest)).value.1.Written pieces := by
  obtain ⟨d, rest, hcons⟩ := List.exists_cons_of_ne_nil hrest
  obtain ⟨hline, piece, hpiece, hd⟩ := h.getElem?_place hcons
  refine ⟨hline, piece, d, hpiece, hd, ?_, ?_⟩
  · -- A token starts with no newline.
    rintro rfl
    rw [hcons] at hstarts
    cases hstarts
  · -- Its first character is the one at the place.
    have hpos := length_lexemeAt_pos c.rest
    show (String.ofList (c.rest.take (lexemeAt c.rest).length)).toList.head? = some d
    rw [String.toList_ofList, List.head?_take, if_neg (by omega), hcons, List.head?_cons]

/-- The tokens from a cursor on are placed where they are written, each behind the one before. -/
theorem tokens (h : c.Stands pieces) (before : List (Noted Token)) :
    ∃ ts : List (Noted Token), (c.tokens before).tokens = before.reverse ++ ts ∧
      PlacedFrom pieces c.skipGap.value.place (ts.map (·.value)) (c.tokens before).eof.value := by
  fun_induction Cursor.tokens c before with
  | case1 c before gap hempty =>
    refine ⟨[], by simp, by simp, ?_, rfl, h.skipGap.line_place (List.isEmpty_iff.1 hempty)⟩
    exact List.isChain_singleton _
  | case2 c before gap hmore read ih =>
    obtain ⟨ts, htokens, hplaced⟩ := ih (h.skipGap.take _)
    refine ⟨⟨read.value.1, gap.notes ++ read.notes⟩ :: ts, by simp [htokens], ?_, ?_, rfl,
      hplaced.last⟩
    · -- The token read here.
      have hrest : gap.value.rest ≠ [] := by simpa only [List.isEmpty_iff] using hmore
      exact List.forall_mem_cons.2
        ⟨h.skipGap.written (starts_drop_gapAt c.rest) hrest, hplaced.written⟩
    · -- The next token is placed behind the first character of this one.
      rw [List.map_cons, List.cons_append, List.map_cons, List.isChain_cons]
      refine ⟨fun q hq => ?_, hplaced.increasing⟩
      obtain rfl := Option.some.inj (hplaced.first.symm.trans hq)
      have hlength := length_lexemeAt_pos gap.value.rest
      apply (h.skipGap.take (lexemeAt gap.value.rest)).skipGap.precedes
      · exact h.skipGap.start_seek_le
      · show gap.value.pos < gap.value.pos + (lexemeAt gap.value.rest).length + _
        omega

end Cursor.Stands

/-- The start of a text stands at its first line. -/
private theorem stands_ofText (file : String) (text : List Char) :
    (Cursor.ofSource (Source.ofText file text).value).Stands
      (logicalPieces (physicalLines text)) := by
  -- Even an empty text has a line.
  have hne : logicalPieces (physicalLines text) ≠ [] := by
    rw [← List.length_pos_iff, length_logicalPieces, List.length_pos_iff]
    exact Text.splitAt_ne_nil _ _
  obtain ⟨piece, after, hpieces⟩ := List.exists_cons_of_ne_nil hne
  refine ⟨rfl, ⟨[], piece, after, hpieces, rfl, rfl, ?_⟩, Nat.le_refl 0⟩
  show (offsetsFrom 0 (logicalPieces (physicalLines text))).tail = _
  rw [hpieces]
  rfl

/-- Every token of a text is placed at a character of a physical line, the first of its value; the
places of successive tokens increase, and the end of the text is placed on the last line. -/
theorem tokens_placed (file : String) (text : List Char) :
    let lines := physicalLines text
    let lexed := (lexText file text).value
    (∀ t ∈ lexed.all.value, 1 ≤ t.line ∧ t.line ≤ lines.length ∧
      ∃ row c, lines[t.line - 1]? = some row ∧ t.col < row.length ∧ row[t.col]? = some c ∧
        t.value.toList.head? = some c) ∧
    (lexed.stream.map Token.place).IsChain Place.Precedes ∧
    lexed.eof.value.line = lines.length := by
  intro lines lexed
  obtain ⟨ts, htokens, hplaced⟩ := (stands_ofText file text).tokens []
  have hall : lexed.all.value = ts.map (·.value) :=
    congrArg (List.map fun t : Noted Token => t.value) htokens
  have hstream : lexed.stream = ts.map (·.value) ++ [lexed.eof.value] :=
    congrArg (· ++ [lexed.eof.value]) hall
  refine ⟨fun t ht => ?_, ?_, ?_⟩
  · rw [hall] at ht
    obtain ⟨hpos, piece, c, hpiece, hc, hnewline, hhead⟩ := hplaced.written t ht
    -- A place in the pieces is one in the physical lines.
    obtain ⟨row, hrow, hcol⟩ := getElem?_of_logicalPieces hpiece hc hnewline
    have hle : t.line - 1 < lines.length := (List.getElem?_eq_some_iff.1 hrow).1
    exact ⟨hpos, by omega, row, c, hrow, (List.getElem?_eq_some_iff.1 hcol).1, hcol, hhead⟩
  · rw [hstream]
    exact hplaced.increasing
  · rw [← length_logicalPieces lines]
    exact hplaced.last

end Preproc
