import Preproc.Lexer
import Preproc.Proofs.Lexing.Gaps

/-!
# Lexing loses nothing

`Lays start text ts eof` says that `text` is the tokens `ts` in order, with a gap before each of
them and one before its end, and that what the tokens tell about the gaps is true: whether there is
anything between a token and the one before, and whether a line starts there. It is said without
the lexer; `lays_tokens` says that the lexer lays out every text so.

The lines of a text are its tokens, cut before every token that starts a line but the first.

## Key results

- `kind_lexemeAt`: a lexeme is never the end of a text
- `lays_tokens`: what is left of a text is laid out by the tokens that are read from it
- `groupLines_isLine`: grouping into lines keeps the tokens
- `lexText_lossless`: a text can be read off its tokens and the gaps between them
-/

namespace Preproc

/-! ## Kinds of lexemes -/

/-- No scanner finds the end of a text. -/
private theorem kind_of_scanner {f : List Char → Except ScanError Lexeme} {cs : List Char}
    {x : Lexeme} (hf : f ∈ scanners) (h : f cs = .ok x) : x.kind ≠ .eof := by
  simp only [scanners, List.mem_cons, List.not_mem_nil, or_false] at hf
  -- No scanner makes an end token.
  rcases hf with rfl | rfl | rfl | rfl | rfl
  · unfold scanRawString at h
    grind
  · unfold scanLiteral at h
    grind
  · unfold scanNumber at h
    grind
  · unfold scanName at h
    grind
  · unfold scanPunctuator at h
    grind

/-- No lexeme is the end of a text. -/
theorem kind_lexemeAt (cs : List Char) : (lexemeAt cs).kind ≠ .eof := by
  unfold lexemeAt
  cases h : scan cs with
  | none => simp
  | some x =>
    obtain ⟨f, hf, hx⟩ := scanner_of_scan h
    exact kind_of_scanner hf hx

/-! ## Layout -/

open Trivia

/-- The text consists of the tokens, each after a gap, and of a last gap before the end token;
`start` tells whether the first token starts a line whatever its gap. -/
inductive Lays : (start : Bool) → List Char → List Token → Token → Prop
  | ends {start : Bool} {gap : List Trivia} {eof : Token} (fills : Fills gap [])
      (kind : eof.kind = .eof) (value : eof.value = "")
      (white : eof.prevWhite = true ↔ texts gap ≠ []) : Lays start (texts gap) [] eof
  | token {start : Bool} {gap : List Trivia} {t : Token} {rest : List Char} {ts : List Token}
      {eof : Token} (fills : Fills gap (t.value.toList ++ rest)) (kind : t.kind ≠ .eof)
      (value : t.value ≠ "") (white : t.prevWhite = true ↔ texts gap ≠ [])
      (bol : t.bol = true ↔ start = true ∨ Trivia.newline ∈ gap) (more : Lays false rest ts eof) :
      Lays start (texts gap ++ (t.value.toList ++ rest)) (t :: ts) eof

/-- The first token of a text starts a line. -/
private theorem Lays.bol_head {text : List Char} {ts : List Token} {eof : Token}
    (h : Lays true text ts eof) : ∀ t ∈ ts.head?, t.bol = true := by
  cases h with
  | ends => simp
  | token _ _ _ _ bol _ => simpa using bol.2 (.inl rfl)

/-- Right behind a token, moving over a gap tells what is in the gap. -/
private theorem Cursor.fills_skipGap (c : Cursor) (hwhite : c.prevWhite = false) :
    ∃ gap, c.rest = texts gap ++ c.skipGap.value.rest ∧ Fills gap c.skipGap.value.rest ∧
      (c.skipGap.value.prevWhite = true ↔ texts gap ≠ []) ∧
      (c.skipGap.value.bol = true ↔ c.bol = true ∨ Trivia.newline ∈ gap) := by
  obtain ⟨gap, after, hrest, hfills, hlength, hnewline⟩ := fills_gapAt c.rest
  -- The measure of the gap is that of its pieces.
  have hafter : c.skipGap.value.rest = after := by
    rw [rest_skipGap, hlength, hrest, List.drop_left]
  refine ⟨gap, by rw [hafter, ← hrest], by rwa [hafter], ?_, ?_⟩
  · show (c.prevWhite || decide (0 < (gapAt c.rest).length)) = true ↔ _
    rw [hwhite, Bool.false_or, decide_eq_true_iff, hlength, List.length_pos_iff]
  · show (c.bol || (gapAt c.rest).newline) = true ↔ _
    rw [Bool.or_eq_true, hnewline]

/-- Right behind a token, what is left of the text is laid out by the tokens read from it. -/
theorem lays_tokens (c : Cursor) (before : List (Noted Token)) (hwhite : c.prevWhite = false) :
    ∃ ts, (c.tokens before).tokens.map (·.value) = before.reverse.map (·.value) ++ ts ∧
      Lays c.bol c.rest ts (c.tokens before).eof.value := by
  fun_induction Cursor.tokens c before with
  | case1 c before g hempty =>
    -- Only a gap is left before the end.
    obtain ⟨gap, hrest, hfills, hgap, -⟩ := c.fills_skipGap hwhite
    have hnil : c.skipGap.value.rest = [] := List.isEmpty_iff.1 hempty
    refine ⟨[], by simp, ?_⟩
    rw [hnil] at hfills
    rw [hrest, hnil, List.append_nil]
    exact .ends hfills rfl rfl hgap
  | case2 c before g hmore read ih =>
    obtain ⟨gap, hrest, hfills, hgap, hbol⟩ := c.fills_skipGap hwhite
    obtain ⟨ts, hts, hlays⟩ := ih rfl
    let x := lexemeAt c.skipGap.value.rest
    -- The characters of the token and those behind it are what the gap leaves.
    have hvalue : read.value.1.value.toList = c.skipGap.value.rest.take x.length :=
      String.toList_ofList
    have hsplit : c.skipGap.value.rest = read.value.1.value.toList ++ read.value.2.rest := by
      rw [hvalue]
      exact (List.take_append_drop _ _).symm
    -- A token has at least one character, since some are left.
    have hsolid : read.value.1.value ≠ "" := by
      intro hnone
      rw [hnone] at hvalue
      have hpos : 0 < x.length := length_lexemeAt_pos _
      have hempty : c.skipGap.value.rest = [] := by
        cases List.take_eq_nil_iff.1 hvalue.symm with
        | inl hzero => omega
        | inr hnil => exact hnil
      exact hmore (List.isEmpty_iff.2 hempty)
    refine ⟨read.value.1 :: ts, ?_, ?_⟩
    · rw [hts]
      simp
    · rw [hrest, hsplit]
      rw [hsplit] at hfills
      exact .token hfills (kind_lexemeAt _) hsolid hgap hbol hlays

/-! ## Lines -/

/-- A line: its first token starts a line, and no other does. -/
def IsLine (ts : List Token) : Prop :=
  ∃ t more, ts = t :: more ∧ t.bol = true ∧ ∀ u ∈ more, u.bol = false

namespace Lexed

/-- Grouping keeps the tokens, if the line read so far is one or the next token starts one. -/
theorem groupLines_isLine (closing : List Note) (line : List Token) (notes : List Note)
    (ts : List (Noted Token)) (hline : line = [] ∨ IsLine line.reverse)
    (hfirst : line = [] → ∀ t ∈ ts.head?, t.value.bol = true) :
    ((groupLines closing line notes ts).1.map (·.value)).flatten =
        line.reverse ++ ts.map (·.value) ∧
      ∀ l ∈ (groupLines closing line notes ts).1, IsLine l.value := by
  fun_induction groupLines closing line notes ts with
  | case1 line notes hempty =>
    rw [List.isEmpty_iff] at hempty
    simp [hempty]
  | case2 line notes hmore =>
    rw [List.isEmpty_iff] at hmore
    simpa using hline.resolve_left hmore
  | case3 line notes t ts hbreak lines rest hgroup ih =>
    -- The token `t` starts a line of its own; the one read so far is complete.
    simp only [Bool.and_eq_true, Bool.not_eq_true', List.isEmpty_eq_false_iff] at hbreak
    obtain ⟨hflat, hlines⟩ := ih (.inr ⟨t.value, [], rfl, hbreak.1, by simp⟩) (by simp)
    rw [hgroup] at hflat hlines
    refine ⟨?_, ?_⟩
    · rw [List.map_cons, List.flatten_cons, hflat, List.map_cons]
      rfl
    · intro l hl
      cases List.mem_cons.1 hl with
      | inl heq => exact heq ▸ hline.resolve_left hbreak.2
      | inr hmem => exact hlines l hmem
  -- The token belongs to the line read so far, or is the first of all.
  | case4 line notes t ts hgo ih =>
    have hline' : IsLine (t.value :: line).reverse := by
      by_cases hempty : line = []
      · subst hempty
        exact ⟨t.value, [], rfl, hfirst rfl t rfl, by simp⟩
      · obtain ⟨u, more, hu, hbol, hmore⟩ := hline.resolve_left hempty
        have hnot : t.value.bol = false := by simpa [hempty] using hgo
        refine ⟨u, more ++ [t.value], by simp [hu], hbol, ?_⟩
        intro v hv
        cases List.mem_append.1 hv with
        | inl hin => exact hmore v hin
        | inr hlast => rw [List.mem_singleton.1 hlast, hnot]
    obtain ⟨hflat, hlines⟩ := ih (.inr hline') (by simp)
    refine ⟨?_, hlines⟩
    rw [hflat, List.reverse_cons, List.map_cons, List.append_assoc]
    rfl

end Lexed

/-- Lexing loses nothing: the logical text of a file is the values of its tokens, in order, and the
gaps between them; a token tells truly whether a gap precedes it and whether it starts a line; and
the lines are the tokens, cut so that the first token of each, and no other, starts a line. -/
theorem lexText_lossless (file : String) (text : List Char) :
    let source := (Source.ofText file text).value
    let lexed := (lexText file text).value
    let tokens := lexed.tokens.map (·.value)
    Lays true source.text tokens lexed.eof.value ∧
      (lexed.lines.1.map (·.value)).flatten = tokens ∧
      ∀ line ∈ lexed.lines.1, IsLine line.value := by
  intro source lexed tokens
  obtain ⟨ts, hts, hlays⟩ := lays_tokens (Cursor.ofSource source) [] rfl
  have htokens : tokens = ts := hts
  have hsource : Lays true source.text tokens lexed.eof.value := by
    rw [htokens]
    exact hlays
  refine ⟨hsource, ?_⟩
  -- Lines are groups of tokens, and the first token starts a line.
  apply Lexed.groupLines_isLine lexed.eof.notes [] [] lexed.tokens (.inl rfl)
  intro _ t ht
  apply hsource.bol_head
  rw [List.head?_map, Option.mem_def.1 ht]
  rfl

end Preproc
