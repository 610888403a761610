import Preproc.Lexer
import Preproc.Proofs.Lexing.Munch

/-!
# The lexemes of a text

The tokens of a text are read off its logical text: the places apart, nothing else of the physical
lines matters to them. `readings` gives the tokens of a logical text without places, and `lexemes`
only kind and value of each. The tokens are read one behind the other, so what comes behind a gap or
a token is what is read of the rest of the text.

## Key results

- `unplaced_lexText`, `face_lexText`: the tokens of a text are those of its logical text
- `lexemes_blank`, `lexemes_of_starts`: the lexemes behind a blank, and at a token
- `spelled_of_mem_lexemes`: a lexeme that is not unknown and no raw string is a spelling
- `solidity_lexemes_le`: lexemes take at most the characters of the text, and fewer if it starts
  with a comment
-/

namespace Preproc

/-- What a token is, apart from its place. -/
def Token.face (t : Token) : Kind × String :=
  (t.kind, t.value)

/-- The token without its place. -/
def Token.unplaced (t : Token) : Token :=
  { t with file := "", line := 0, col := 0 }

/-- All tokens of a text, the one that ends them last. -/
def Lexed.stream (x : Lexed) : List Token :=
  x.tokens.map (·.value) ++ [x.eof.value]

/-- A token that is read, without a place. -/
def reading (kind : Kind) (value : List Char) (white bol : Bool) : Token :=
  { kind, value := String.ofList value, file := "", line := 0, col := 0, prevWhite := white, bol }

/-- The tokens of a logical text without their places, the end token last. `white` tells whether
white space precedes the text, `bol` whether it starts a line. -/
def readings (white bol : Bool) (cs : List Char) : List Token :=
  let gap := gapAt cs
  let rest := cs.drop gap.length
  let x := lexemeAt rest
  let white := white || decide (0 < gap.length)
  if rest.isEmpty then [reading .eof [] white false]
  else
    reading x.kind (rest.take x.length) white (bol || gap.newline) ::
      readings false false (rest.drop x.length)
termination_by cs.length
decreasing_by
  have hx : 0 < x.length := length_lexemeAt_pos rest
  have hrest : 0 < rest.length := List.length_pos_iff.2 (by simpa using ‹¬rest.isEmpty = true›)
  have hle : rest.length ≤ cs.length := by
    rw [List.length_drop]
    omega
  show (rest.drop x.length).length < cs.length
  rw [List.length_drop]
  omega

/-- The tokens from a cursor on are read off the text from there on. -/
private theorem unplaced_tokens (c : Cursor) (before : List (Noted Token)) :
    (c.tokens before).stream.map Token.unplaced =
      before.reverse.map (·.value.unplaced) ++ readings c.prevWhite c.bol c.rest := by
  fun_induction Cursor.tokens c before with
  -- Only a gap is left, and the end token tells of it.
  | case1 c before gap hempty =>
    have hrest : (c.rest.drop (gapAt c.rest).length).isEmpty = true := hempty
    rw [readings]
    simp only [hrest, if_true, Lexed.stream, List.map_append, List.map_map, List.map_cons,
      List.map_nil]
    rfl
  | case2 c before gap hmore read ih =>
    have hrest : ¬(c.rest.drop (gapAt c.rest).length).isEmpty = true := hmore
    rw [ih, readings.eq_def c.prevWhite]
    simp only [hrest]
    simp [read, gap, Token.unplaced, reading, Cursor.take, Cursor.skipGap, Cursor.drop]

/-- There is always a token that ends the text. -/
theorem readings_ne_nil (white bol : Bool) (cs : List Char) : readings white bol cs ≠ [] := by
  rw [readings]
  split <;> simp

/-- The lexemes of a logical text, in order: what its tokens are, without the one that ends them. -/
def lexemes (cs : List Char) : List (Kind × String) :=
  (readings false true cs).dropLast.map Token.face

/-- What stands before a text shows at its first token, and not in what that token is. -/
private theorem face_readings (white bol : Bool) (cs : List Char) :
    (readings white bol cs).dropLast.map Token.face = lexemes cs := by
  rw [lexemes, readings.eq_def white, readings.eq_def false true]
  dsimp only
  split
  · rfl
  · rw [List.dropLast_cons_of_ne_nil (readings_ne_nil _ _ _),
      List.dropLast_cons_of_ne_nil (readings_ne_nil _ _ _)]
    rfl

/-- The first lexeme is what is read behind the gap, and the others those of the rest. -/
theorem lexemes_eq (cs : List Char) :
    lexemes cs =
      let rest := cs.drop (gapAt cs).length
      let x := lexemeAt rest
      if rest.isEmpty then []
      else (x.kind, String.ofList (rest.take x.length)) :: lexemes (rest.drop x.length) := by
  rw [lexemes, readings]
  dsimp only
  split
  · rfl
  · rw [List.dropLast_cons_of_ne_nil (readings_ne_nil _ _ _), List.map_cons, face_readings]
    rfl

/-- The end token has no text. -/
theorem Cursor.face_eof_tokens (c : Cursor) (before : List (Noted Token)) :
    (c.tokens before).eof.value.face = (.eof, "") := by
  fun_induction Cursor.tokens c before with
  | case1 => rfl
  | case2 _ _ _ _ _ ih => exact ih

/-- Every token is taken by a cursor in the same file. -/
theorem Cursor.exists_take_of_mem_tokens (c : Cursor) (before : List (Noted Token))
    {t : Noted Token} (h : t ∈ (c.tokens before).tokens) :
    t ∈ before ∨ ∃ (c' : Cursor) (x : Lexeme), c'.file = c.file ∧
      t.value = (c'.take x).value.1 := by
  fun_induction Cursor.tokens c before with
  | case1 => exact .inl (List.mem_reverse.1 h)
  | case2 c before gap _ read ih =>
    cases ih h with
    | inl hmem =>
      -- The token that is taken first stands before those of the rest.
      rcases List.mem_cons.1 hmem with rfl | hbefore
      · exact .inr ⟨gap.value, lexemeAt gap.value.rest, rfl, rfl⟩
      · exact .inl hbefore
    | inr htaken => exact .inr htaken

/-! ## Logical text -/

/-- The logical text of physical lines that end in newlines. -/
def splice (cs : List Char) : List Char :=
  (logicalPieces (Text.splitAt '\n' cs)).flatten

/-- The logical text of a file. -/
def logicalText (cs : List Char) : List Char :=
  splice (normalizeNewlines cs)

/-- A text is cut at the first separator. -/
theorem splitAt_append_cons {sep : Char} {line : List Char} (h : sep ∉ line) (rest : List Char) :
    Text.splitAt sep (line ++ sep :: rest) = line :: Text.splitAt sep rest := by
  induction line with
  | nil => simp [Text.splitAt]
  | cons c line ih =>
    rw [List.mem_cons, not_or] at h
    rw [List.cons_append, Text.splitAt, if_neg (Ne.symm h.1), ih h.2]

/-- A line that does not end in a backslash stays as it is. -/
theorem splice_append_cons {line : List Char} (hline : '\n' ∉ line)
    (hlast : line.getLast? ≠ some '\\') (rest : List Char) :
    splice (line ++ '\n' :: rest) = line ++ '\n' :: splice rest := by
  obtain ⟨l, ls, hls⟩ := List.exists_cons_of_ne_nil (Text.splitAt_ne_nil '\n' rest)
  have hsplice : isSpliced line = false := by simpa [isSpliced] using hlast
  simp [splice, splitAt_append_cons hline, hls, logicalPieces, hsplice]

/-- A text with newlines only stays as it is. -/
theorem normalizeNewlines_of_notMem {cs : List Char} (h : '\r' ∉ cs) :
    normalizeNewlines cs = cs := by
  fun_induction normalizeNewlines cs with
  | case1 => simp at h
  | case2 => simp at h
  | case3 c cs _ _ ih =>
    rw [List.mem_cons, not_or] at h
    rw [ih h.2]
  | case4 => rfl

/-- All line endings become newlines. -/
private theorem cr_notMem_normalizeNewlines (cs : List Char) : '\r' ∉ normalizeNewlines cs := by
  fun_induction normalizeNewlines cs with
  | case1 cs ih => simpa using ih
  | case2 cs _ ih => simpa using ih
  | case3 c cs _ hcr ih =>
    rw [List.mem_cons, not_or]
    exact ⟨fun heq => hcr heq.symm, ih⟩
  | case4 => simp

/-- Pieces hold characters of the text only. -/
private theorem subset_of_mem_splitAt {sep : Char} {cs piece : List Char}
    (h : piece ∈ Text.splitAt sep cs) : piece ⊆ cs := by
  induction cs generalizing piece with
  | nil =>
    obtain rfl : piece = [] := by simpa [Text.splitAt] using h
    simp
  | cons c cs ih =>
    -- The character starts a new piece or goes on with the first.
    obtain ⟨first, pieces, hpieces⟩ := List.exists_cons_of_ne_nil (Text.splitAt_ne_nil sep cs)
    have hfirst : first ⊆ cs := ih (by simp [hpieces])
    have hmore : ∀ p ∈ pieces, p ⊆ cs := fun p hp => ih (by simp [hpieces, hp])
    rw [Text.splitAt, hpieces] at h
    split at h
    · simp only [List.mem_cons] at h
      rcases h with rfl | rfl | h
      · simp
      · exact List.subset_cons_of_subset _ hfirst
      · exact List.subset_cons_of_subset _ (hmore _ h)
    · simp only [List.mem_cons] at h
      rcases h with rfl | h
      · exact List.cons_subset_cons _ hfirst
      · exact List.subset_cons_of_subset _ (hmore _ h)

/-- Joining lines adds nothing but newlines. -/
private theorem mem_of_mem_logicalPieces {lines : List (List Char)} {c : Char}
    (h : c ∈ (logicalPieces lines).flatten) : c = '\n' ∨ ∃ line ∈ lines, c ∈ line := by
  fun_induction logicalPieces lines with
  | case1 => simp at h
  | case2 line =>
    -- The last line gets no newline, and may lose its backslash.
    have hc : c ∈ line := by
      rw [List.flatten_cons, List.flatten_nil, List.append_nil] at h
      split at h
      · exact List.dropLast_subset _ h
      · exact h
    exact .inr ⟨line, by simp, hc⟩
  | case3 line lines _ ih =>
    rw [List.flatten_cons, List.mem_append] at h
    cases h with
    | inl h =>
      split at h
      · exact .inr ⟨line, by simp, List.dropLast_subset _ h⟩
      · rw [List.mem_append, List.mem_singleton] at h
        exact h.symm.imp_right fun hc => ⟨line, by simp, hc⟩
    | inr h =>
      exact (ih h).imp_right fun ⟨l, hl, hc⟩ => ⟨l, List.mem_cons_of_mem _ hl, hc⟩

/-- Every line ending is a newline in the logical text. -/
theorem cr_notMem_logicalText (cs : List Char) : '\r' ∉ logicalText cs := by
  intro hmem
  rcases mem_of_mem_logicalPieces hmem with hc | ⟨line, hline, hc⟩
  · revert hc
    decide
  · exact cr_notMem_normalizeNewlines cs (subset_of_mem_splitAt hline hc)

/-- The tokens of a text, apart from their places, are read off its logical text. -/
theorem unplaced_lexText (file : String) (text : List Char) :
    (lexText file text).value.stream.map Token.unplaced = readings false true (logicalText text) :=
  unplaced_tokens (Cursor.ofSource (Source.ofText file text).value) []

/-- The tokens of a text without the one that ends them. -/
theorem unplaced_all (file : String) (text : List Char) :
    (lexText file text).value.all.value.map Token.unplaced =
      (readings false true (logicalText text)).dropLast := by
  rw [← unplaced_lexText file text, Lexed.stream, List.map_append, List.map_singleton,
    List.dropLast_concat]
  rfl

/-- The tokens of a text are the lexemes of its logical text. -/
theorem face_lexText (file : String) (text : List Char) :
    (lexText file text).value.tokens.map (·.value.face) = lexemes (logicalText text) := by
  rw [lexemes, ← unplaced_all file text]
  simp [Lexed.all, Token.face, Token.unplaced]

/-- What reading a text again gives. -/
theorem face_relex (text : List Char) :
    (relex text).value.map Token.face = lexemes (logicalText text) := by
  rw [← face_lexText "Unknown" text]
  exact List.map_map

/-! ## Gaps -/

/-- A text that starts with a token has no gap before it. -/
theorem gapAt_of_starts {cs : List Char} (h : Trivia.starts cs = false) : gapAt cs = {} := by
  unfold Trivia.starts at h
  unfold gapAt
  split <;> simp_all

/-- A gap goes on behind a blank. -/
private theorem gapAt_blank {c : Char} (hc : isSpace c = true ∨ c = '\n') (cs : List Char) :
    (gapAt (c :: cs)).length = 1 + (gapAt cs).length := by
  -- A blank starts no comment.
  have hslash : c ≠ '/' := by
    rintro rfl
    revert hc
    decide
  rw [gapAt]
  · split
    · rfl
    · rename_i hspace
      rw [if_pos (hc.resolve_left hspace)]
      rfl
  · intro rest heq
    exact absurd heq hslash
  · intro rest heq
    exact absurd heq hslash

/-- The lexemes of a text that starts with a token. -/
theorem lexemes_of_starts {cs : List Char} (h : Trivia.starts cs = false) (hsolid : cs ≠ []) :
    lexemes cs = ((lexemeAt cs).kind, String.ofList (cs.take (lexemeAt cs).length)) ::
      lexemes (cs.drop (lexemeAt cs).length) := by
  rw [lexemes_eq]
  simp [gapAt_of_starts h, hsolid]

/-- An empty text has no lexemes. -/
@[simp]
theorem lexemes_nil : lexemes [] = [] := by
  rw [lexemes_eq]
  simp

/-- Blanks are no part of a lexeme that follows them. -/
theorem lexemes_blank {c : Char} (hc : isSpace c = true ∨ c = '\n') (cs : List Char) :
    lexemes (c :: cs) = lexemes cs := by
  rw [lexemes_eq, lexemes_eq cs, gapAt_blank hc, Nat.add_comm, List.drop_succ_cons]

/-- Behind a gap no other starts. -/
theorem starts_drop_gapAt (cs : List Char) : Trivia.starts (cs.drop (gapAt cs).length) = false := by
  obtain ⟨ps, after, hcs, hfills, hlength, -⟩ := fills_gapAt cs
  rw [hlength, hcs, List.drop_left]
  clear hcs hlength
  induction hfills with
  | nil full => exact full
  | cons _ _ ih => exact ih

/-- Gaps are no part of a lexeme that follows them. -/
private theorem lexemes_drop_gapAt (cs : List Char) :
    lexemes cs = lexemes (cs.drop (gapAt cs).length) := by
  rw [lexemes_eq, lexemes_eq (cs.drop (gapAt cs).length), gapAt_of_starts (starts_drop_gapAt cs),
    List.drop_zero]

/-! ## Each lexeme -/

/-- What is read is read at some place of the text, where a token starts. -/
private theorem exists_of_mem_readings {white bol : Bool} {cs : List Char} {x : Kind × String}
    (h : x ∈ (readings white bol cs).dropLast.map Token.face) :
    ∃ rest, rest <:+ cs ∧ rest ≠ [] ∧ Trivia.starts rest = false ∧
      x = ((lexemeAt rest).kind, String.ofList (rest.take (lexemeAt rest).length)) := by
  fun_induction readings white bol cs with
  | case1 => cases h
  | case2 white bol cs gap rest y w hrest ih =>
    rw [List.dropLast_cons_of_ne_nil (readings_ne_nil _ _ _), List.map_cons] at h
    cases List.mem_cons.1 h with
    -- This is the token behind the gap.
    | inl heq =>
      exact ⟨rest, List.drop_suffix _ _, by simpa using hrest, starts_drop_gapAt cs, heq⟩
    -- A later token is read from an end of what is left.
    | inr hmem =>
      obtain ⟨rest', hsuffix, hx⟩ := ih hmem
      exact ⟨rest', (hsuffix.trans (List.drop_suffix _ _)).trans (List.drop_suffix _ _), hx⟩

/-- Every lexeme is read at some place of the text, where a token starts. -/
theorem exists_of_mem_lexemes {cs : List Char} {x : Kind × String} (h : x ∈ lexemes cs) :
    ∃ rest, rest <:+ cs ∧ rest ≠ [] ∧ Trivia.starts rest = false ∧
      x = ((lexemeAt rest).kind, String.ofList (rest.take (lexemeAt rest).length)) :=
  exists_of_mem_readings h

/-- The encoding of a raw string ends in its mark. -/
private theorem isRaw_of_scanRawString {cs : List Char} {x : Lexeme} (h : scanRawString cs = .ok x)
    (hk : x.kind ≠ .unknown) :
    x.kind = .string ∧ ((cs.take x.length).takeWhile (· ≠ '"')).getLast? = some 'R' := by
  unfold scanRawString at h
  split at h
  · cases h
  · rename_i n quote rest hopen
    obtain ⟨e, he, rfl, hquote, rfl⟩ := openingQuote?_eq_some hopen
    obtain rfl := List.mem_singleton.1 hquote
    have hlength : x.kind = .string ∧ e.length + 1 ≤ x.length := by
      dsimp only at h
      repeat' split at h
      all_goals obtain rfl := Except.ok.inj h
      · exact ⟨rfl, by dsimp only; omega⟩
      all_goals exact absurd rfl hk
    -- All encodings of raw strings end in this mark, and none holds a quote.
    have hlast : ∀ e ∈ rawEncodings, (e.toList.takeWhile (· ≠ '"')) = e.toList ∧
        e.toList.getLast? = some 'R' := by decide
    refine ⟨hlength.1, ?_⟩
    obtain ⟨m, hm⟩ : ∃ m, x.length = e.toList.length + (m + 1) :=
      ⟨x.length - e.length - 1, by rw [String.length_toList]; omega⟩
    have hfree : ∀ c ∈ e.toList, (decide (c ≠ '"')) = true := by
      intro c hc
      rw [← (hlast e he).1] at hc
      exact List.all_eq_true.1 List.all_takeWhile c hc
    rw [hm, List.take_length_add_append, List.take_succ_cons, List.takeWhile_append_of_pos hfree]
    simpa using (hlast e he).2

/-- What is read at a place is a spelling that does not stick to what follows, if it is known and no
raw string. -/
theorem spells_take {cs : List Char} (hstarts : Trivia.starts cs = false)
    (hk : (lexemeAt cs).kind ≠ .unknown)
    (hraw : (lexemeAt cs).kind = .string →
      ((cs.take (lexemeAt cs).length).takeWhile (· ≠ '"')).getLast? ≠ some 'R') :
    (lexemeAt cs).Spells (cs.take (lexemeAt cs).length) (cs.drop (lexemeAt cs).length) := by
  -- What is read is no raw string, since its encoding would show that.
  have hnot : scanRawString cs ≠ .ok (lexemeAt cs) := by
    intro hscan
    obtain ⟨hstring, hlast⟩ := isRaw_of_scanRawString hscan hk
    exact hraw hstring hlast
  obtain ⟨value, rest, hcs, hspells⟩ := spells_lexemeAt hstarts hk hnot
  have htake : cs.take (lexemeAt cs).length = value := by
    conv_lhs => rw [hspells.length, hcs, List.take_left]
  have hdrop : cs.drop (lexemeAt cs).length = rest := by
    conv_lhs => rw [hspells.length, hcs, List.drop_left]
  rwa [htake, hdrop]

/-- A lexeme that is not unknown and no raw string is a spelling. -/
theorem spelled_of_mem_lexemes {cs : List Char} {k : Kind} {v : String} (h : (k, v) ∈ lexemes cs)
    (hk : k ≠ .unknown)
    (hraw : k = .string → (v.toList.takeWhile (· ≠ '"')).getLast? ≠ some 'R') :
    Spelled k v.toList := by
  obtain ⟨rest, -, -, hstarts, hx⟩ := exists_of_mem_lexemes h
  obtain ⟨rfl, rfl⟩ := Prod.mk.inj hx
  rw [String.toList_ofList] at hraw ⊢
  exact (spells_take hstarts hk hraw).spelled

/-- The characters of a lexeme are characters of the text. -/
theorem subset_of_mem_lexemes {cs : List Char} {x : Kind × String} (h : x ∈ lexemes cs) :
    x.2.toList ⊆ cs := by
  obtain ⟨rest, hsuffix, -, -, rfl⟩ := exists_of_mem_lexemes h
  rw [String.toList_ofList]
  exact List.Subset.trans (List.take_subset _ _) hsuffix.subset

/-! ## Counting characters -/

/-- The number of characters of the lexemes that are no blanks. -/
def solidity (xs : List (Kind × String)) : Nat :=
  (xs.flatMap fun x => x.2.toList).countP isSolid

theorem solidity_cons (x : Kind × String) (xs : List (Kind × String)) :
    solidity (x :: xs) = x.2.toList.countP isSolid + solidity xs := by
  rw [solidity, List.flatMap_cons, List.countP_append, solidity]

/-- Lexemes take no more characters than there are. -/
theorem solidity_lexemes_le (cs : List Char) : solidity (lexemes cs) ≤ cs.countP isSolid := by
  rw [lexemes]
  generalize false = white, true = bol
  fun_induction readings white bol cs with
  | case1 => simp [solidity]
  | case2 white bol cs gap rest x w hrest ih =>
    rw [List.dropLast_cons_of_ne_nil (readings_ne_nil _ _ _), List.map_cons]
    -- A lexeme and what follows it share no character, and the gap before it is lost.
    have hcut : (rest.take x.length).countP isSolid + (rest.drop x.length).countP isSolid =
        rest.countP isSolid := by
      rw [← List.countP_append, List.take_append_drop]
    have hgap : rest.countP isSolid ≤ cs.countP isSolid := (List.drop_sublist _ _).countP_le
    have hvalue : (reading x.kind (rest.take x.length) w (bol || gap.newline)).face.2.toList =
        rest.take x.length := String.toList_ofList
    rw [solidity_cons, hvalue]
    omega

/-- A comment takes characters from the lexemes. -/
theorem starts_of_solidity {c : Char} {cs : List Char} (hc : isSolid c = true)
    (h : solidity (lexemes (c :: cs)) = (c :: cs).countP isSolid) :
    Trivia.starts (c :: cs) = false := by
  by_contra hstarts
  have hgap : (gapAt (c :: cs)).length ≠ 0 := by
    intro hzero
    have hnone := starts_drop_gapAt (c :: cs)
    rw [hzero, List.drop_zero] at hnone
    exact hstarts hnone
  -- Otherwise the first character would stand in the gap, and be missing.
  obtain ⟨n, hn⟩ := Nat.exists_eq_succ_of_ne_zero hgap
  have hle := solidity_lexemes_le (cs.drop n)
  have hdrop : (cs.drop n).countP isSolid ≤ cs.countP isSolid := (List.drop_sublist _ _).countP_le
  rw [lexemes_drop_gapAt, hn, List.drop_succ_cons, List.countP_cons_of_pos hc] at h
  omega

end Preproc
