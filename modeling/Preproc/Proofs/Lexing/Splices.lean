import Preproc.Proofs.Lexing.Readings

/-!
# Line splices

A backslash at the end of a physical line joins it to the next. Said of the text as a whole: a
backslash and the newline after it are dropped, so is a backslash at the very end, and every other
character stays. So a text contributes to the logical text the same whatever follows it, unless it
ends in a backslash whose fate depends on that.

Tokens are read off the logical text, so a splice can be put in anywhere, within a token as well as
between two, and only places change.

## Key results

- `splice_cons`, `splice_backslash_newline`: what becomes of the first character of a text
- `logicalText_append`: the logical text of two texts put together
- `splice_invisible`: a splice changes nothing but the places of tokens
-/

namespace Preproc

/-! ## The first character -/

private theorem splice_newline (cs : List Char) : splice ('\n' :: cs) = '\n' :: splice cs :=
  @splice_append_cons [] (by simp) (by simp) cs

/-- A backslash before a newline goes with it. -/
theorem splice_backslash_newline (cs : List Char) : splice ('\\' :: '\n' :: cs) = splice cs := by
  obtain ⟨line, lines, hlines⟩ := List.exists_cons_of_ne_nil (Text.splitAt_ne_nil '\n' cs)
  simp [splice, Text.splitAt, hlines, logicalPieces, isSpliced]

/-- A character more at the start of the first line is one more in the logical text, if it leaves
the end of the line as it is. -/
theorem flatten_logicalPieces_cons {c : Char} {line : List Char} (lines : List (List Char))
    (h : isSpliced (c :: line) = isSpliced line) :
    (logicalPieces ((c :: line) :: lines)).flatten =
      c :: (logicalPieces (line :: lines)).flatten := by
  -- The backslash that is dropped is not the new character.
  have hpiece : isSpliced line = true → (c :: line).dropLast = c :: line.dropLast := by
    intro hspliced
    apply List.dropLast_cons_of_ne_nil
    rintro rfl
    simp [isSpliced] at hspliced
  cases lines with
  | nil =>
    simp only [logicalPieces, h, List.flatten_cons, List.flatten_nil, List.append_nil]
    split
    · rw [hpiece ‹_›]
    · rfl
  | cons next lines =>
    simp only [logicalPieces, h, List.flatten_cons]
    split
    · rw [hpiece ‹_›, List.cons_append]
    · rfl

/-- A character stays, unless it is a backslash at the end of a line. -/
theorem splice_cons {c : Char} {cs : List Char}
    (h : c = '\\' → cs ≠ [] ∧ cs.head? ≠ some '\n') : splice (c :: cs) = c :: splice cs := by
  by_cases hc : c = '\n'
  · rw [hc, splice_newline]
  · obtain ⟨line, lines, hlines⟩ := List.exists_cons_of_ne_nil (Text.splitAt_ne_nil '\n' cs)
    have hsame : isSpliced (c :: line) = isSpliced line := by
      cases line with
      | nil =>
        -- The line is empty, so `c` is all that stands before its end.
        have hend : cs = [] ∨ cs.head? = some '\n' := by
          cases cs with
          | nil => exact .inl rfl
          | cons d cs =>
            right
            by_contra hd
            rw [Text.splitAt, if_neg (by simpa using hd)] at hlines
            split at hlines <;> cases hlines
        have hslash : c ≠ '\\' := fun heq => hend.elim (h heq).1 (h heq).2
        simp [isSpliced, hslash]
      | cons d line => simp [isSpliced]
    rw [splice, splice, Text.splitAt, if_neg hc, hlines]
    exact flatten_logicalPieces_cons lines hsame

/-! ## Texts put together -/

/-- A character more at the start leaves the end of a text as it is. -/
private theorem getLast?_cons_of_eq_some {cs : List Char} {d : Char} (h : cs.getLast? = some d)
    (c : Char) : (c :: cs).getLast? = some d := by
  rw [List.getLast?_cons, h]
  rfl

/-- What a text contributes to the logical text does not depend on what follows it, if a backslash
at its end is not followed by the end of a line. -/
theorem exists_splice_append (before : List Char) :
    ∃ front, ∀ after, (before.getLast? = some '\\' → after ≠ [] ∧ after.head? ≠ some '\n') →
      splice (before ++ after) = front ++ splice after := by
  match before with
  | [] => exact ⟨[], fun after _ => rfl⟩
  | [c] =>
    refine ⟨[c], fun after h => ?_⟩
    apply splice_cons
    intro hc
    exact h (by simp [hc])
  | c :: d :: before =>
    by_cases hjoined : c = '\\' ∧ d = '\n'
    · -- The backslash and the newline are dropped; what follows them is shorter by both.
      obtain ⟨rfl, rfl⟩ := hjoined
      obtain ⟨front, hfront⟩ := exists_splice_append before
      refine ⟨front, fun after h => ?_⟩
      rw [List.cons_append, List.cons_append, splice_backslash_newline]
      apply hfront
      intro hlast
      apply h
      exact getLast?_cons_of_eq_some (getLast?_cons_of_eq_some hlast _) _
    · obtain ⟨front, hfront⟩ := exists_splice_append (d :: before)
      refine ⟨c :: front, fun after h => ?_⟩
      have hkept : splice (c :: (d :: before ++ after)) = c :: splice (d :: before ++ after) := by
        apply splice_cons
        intro hc
        exact ⟨by simp, by simpa using fun hd => hjoined ⟨hc, hd⟩⟩
      rw [List.cons_append, hkept, hfront after (by simpa using h), List.cons_append]

/-- Texts are joined as their logical texts are, if the first does not end in a backslash. -/
theorem splice_append {before : List Char} (h : before.getLast? ≠ some '\\') (after : List Char) :
    splice (before ++ after) = splice before ++ splice after := by
  obtain ⟨front, hfront⟩ := exists_splice_append before
  -- Before the empty text the first contributes its own logical text.
  have hbefore : splice before = front := by
    have hnil := hfront [] fun hlast => absurd hlast h
    rwa [List.append_nil, show splice [] = [] from rfl, List.append_nil] at hnil
  rw [hbefore, hfront after fun hlast => absurd hlast h]

/-- A backslash and a newline between two texts leave no trace, unless they part a backslash from
the end of its line. -/
private theorem splice_insert {before after : List Char}
    (h : before.getLast? = some '\\' → after ≠ [] ∧ after.head? ≠ some '\n') :
    splice (before ++ '\\' :: '\n' :: after) = splice (before ++ after) := by
  obtain ⟨front, hfront⟩ := exists_splice_append before
  rw [hfront after h, hfront _ fun _ => ⟨by simp, by simp⟩, splice_backslash_newline]

/-! ## Line endings -/

/-- Line endings are found in two texts apart, unless one ending is shared by both. -/
theorem normalizeNewlines_append {before after : List Char}
    (h : before.getLast? = some '\r' → after.head? ≠ some '\n') :
    normalizeNewlines (before ++ after) = normalizeNewlines before ++ normalizeNewlines after := by
  fun_induction normalizeNewlines before with
  | case1 cs ih =>
    have hrest := ih fun hlast =>
      h (getLast?_cons_of_eq_some (getLast?_cons_of_eq_some hlast _) _)
    rw [List.cons_append, List.cons_append, normalizeNewlines, hrest, List.cons_append]
  | case2 cs hcs ih =>
    have hrest := ih fun hlast => h (getLast?_cons_of_eq_some hlast _)
    rw [List.cons_append, normalizeNewlines, hrest, List.cons_append]
    -- The carriage return stands alone in both texts.
    intro ds heq
    cases cs with
    | nil => exact h rfl (by simpa using congrArg List.head? heq)
    | cons d cs => exact hcs cs (by rw [(List.cons.inj heq).1])
  | case3 c cs hpair hcr ih =>
    have hrest := ih fun hlast => h (getLast?_cons_of_eq_some hlast _)
    rw [List.cons_append, normalizeNewlines, hrest, List.cons_append]
    · exact fun ds hc _ => hcr hc
    · exact hcr
  | case4 => rfl

/-- A text ends as before, but for a carriage return. -/
private theorem getLast?_normalizeNewlines (cs : List Char) :
    (normalizeNewlines cs).getLast? = cs.getLast?.map fun c => if c = '\r' then '\n' else c := by
  fun_induction normalizeNewlines cs with
  -- A pair becomes one newline, and a carriage return alone becomes another.
  | case1 cs ih =>
    simp only [List.getLast?_cons, ih]
    cases cs.getLast? <;> simp
  | case2 cs hcs ih =>
    simp only [List.getLast?_cons, ih]
    cases cs.getLast? <;> simp
  | case3 c cs hpair hcr ih =>
    have hc : c ≠ '\r' := fun heq => hcr heq
    simp only [List.getLast?_cons, ih]
    cases cs.getLast? <;> simp [hc]
  | case4 => rfl

/-- A backslash at the end was there before. -/
private theorem getLast?_of_normalizeNewlines {cs : List Char}
    (h : (normalizeNewlines cs).getLast? = some '\\') : cs.getLast? = some '\\' := by
  rw [getLast?_normalizeNewlines] at h
  obtain ⟨c, hc, heq⟩ := Option.map_eq_some_iff.1 h
  split at heq
  · cases heq
  · rw [hc, heq]

/-- A text does not become empty. -/
theorem normalizeNewlines_ne_nil {cs : List Char} (h : cs ≠ []) : normalizeNewlines cs ≠ [] := by
  unfold normalizeNewlines
  split <;> simp_all

/-- A newline at the start was a line ending before. -/
private theorem head?_normalizeNewlines {cs : List Char}
    (h : (normalizeNewlines cs).head? = some '\n') :
    cs.head? = some '\n' ∨ cs.head? = some '\r' := by
  unfold normalizeNewlines at h
  split at h <;> simp_all

/-- The logical text of two texts put together, where neither a line ending nor a backslash at the
end of the first depends on the second. -/
theorem logicalText_append {before after : List Char}
    (hpair : before.getLast? = some '\r' → after.head? ≠ some '\n')
    (hslash : before.getLast? ≠ some '\\') :
    logicalText (before ++ after) = logicalText before ++ logicalText after := by
  rw [logicalText, normalizeNewlines_append hpair]
  apply splice_append
  exact fun hlast => hslash (getLast?_of_normalizeNewlines hlast)

/-- A text without separators is one piece. -/
private theorem splitAt_of_notMem {sep : Char} {cs : List Char} (h : sep ∉ cs) :
    Text.splitAt sep cs = [cs] := by
  induction cs with
  | nil => rfl
  | cons c cs ih =>
    rw [List.mem_cons, not_or] at h
    rw [Text.splitAt, if_neg (Ne.symm h.1), ih h.2]

/-- The logical text of a single line. -/
theorem logicalText_line {line : List Char} (hreturn : '\r' ∉ line) (hnewline : '\n' ∉ line) :
    logicalText line = if isSpliced line then line.dropLast else line := by
  rw [logicalText, normalizeNewlines_of_notMem hreturn, splice, splitAt_of_notMem hnewline,
    logicalPieces, List.flatten_singleton]

/-- A line that does not end in a backslash is its own logical text. -/
theorem logicalText_of_line {line : List Char} (hreturn : '\r' ∉ line) (hnewline : '\n' ∉ line)
    (hlast : line.getLast? ≠ some '\\') : logicalText line = line := by
  rw [logicalText_line hreturn hnewline, if_neg]
  simpa [isSpliced] using hlast

/-- A line gets no characters that it did not have. -/
theorem logicalText_line_subset {line : List Char} (hreturn : '\r' ∉ line)
    (hnewline : '\n' ∉ line) : logicalText line ⊆ line := by
  rw [logicalText_line hreturn hnewline]
  split
  · exact List.dropLast_subset line
  · exact List.Subset.refl line

/-- A line keeps its first character, unless that is the backslash that ends it. -/
theorem head?_logicalText_line {line : List Char} (hreturn : '\r' ∉ line) (hnewline : '\n' ∉ line)
    {c : Char} (hc : c ≠ '\\') : (logicalText line).head? = some c ↔ line.head? = some c := by
  rw [logicalText_line hreturn hnewline]
  split
  · rename_i hspliced
    cases line with
    | nil => rfl
    | cons d line =>
      cases line with
      | nil =>
        -- The line is a backslash and nothing else.
        obtain rfl : d = '\\' := by simpa [isSpliced] using hspliced
        simpa using hc.symm
      | cons e line => rfl
  · rfl

/-- A backslash and any line ending are a backslash and a newline. -/
private theorem normalizeNewlines_splice {ending after : List Char}
    (hending : ending ∈ [['\n'], ['\r'], ['\r', '\n']])
    (hcr : ending = ['\r'] → after.head? ≠ some '\n') :
    normalizeNewlines ('\\' :: (ending ++ after)) = '\\' :: '\n' :: normalizeNewlines after := by
  simp only [List.mem_cons, List.not_mem_nil, or_false] at hending
  rcases hending with rfl | rfl | rfl
  · rfl
  · rw [normalizeNewlines, List.singleton_append, normalizeNewlines]
    · -- The carriage return does not make a pair with what follows.
      intro ds heq
      exact hcr rfl (by rw [heq]; rfl)
    · simp
    · simp
  · rfl

/-- A backslash and a line ending can be put in anywhere, be it within a token, and change nothing
of the tokens but their places; only a pair of carriage return and newline must not be parted, nor a
backslash from the end of its line, and a carriage return must not be put before a newline. -/
theorem splice_invisible (file : String) {before after ending : List Char}
    (hending : ending ∈ [['\n'], ['\r'], ['\r', '\n']])
    (hpair : ¬(before.getLast? = some '\r' ∧ after.head? = some '\n'))
    (hslash : before.getLast? = some '\\' →
      after ≠ [] ∧ after.head? ≠ some '\n' ∧ after.head? ≠ some '\r')
    (hcr : ending = ['\r'] → after.head? ≠ some '\n') :
    (lexText file (before ++ '\\' :: (ending ++ after))).value.stream.map Token.unplaced =
      (lexText file (before ++ after)).value.stream.map Token.unplaced := by
  have hlogical : logicalText (before ++ '\\' :: (ending ++ after)) =
      logicalText (before ++ after) := by
    rw [logicalText, logicalText, normalizeNewlines_append fun _ => by simp,
      normalizeNewlines_append fun hlast hhead => hpair ⟨hlast, hhead⟩,
      normalizeNewlines_splice hending hcr]
    apply splice_insert
    intro hlast
    -- A backslash at the end of the first text is not before a line ending of the second.
    obtain ⟨hmore, hnewline, hreturn⟩ := hslash (getLast?_of_normalizeNewlines hlast)
    refine ⟨normalizeNewlines_ne_nil hmore, fun hhead => ?_⟩
    exact (head?_normalizeNewlines hhead).elim hnewline hreturn
  rw [unplaced_lexText, unplaced_lexText, hlogical]

/-- Here the splice parts a backslash from the quote that it escapes. -/
theorem splice_invisible_escape :
    let before := "x = L\"a\\".toList
    let after := "\"b\" /* c".toList
    before.getLast? = some '\\' ∧ after.head? = some '"' ∧
    (lexText "t.c" (before ++ '\\' :: (['\r', '\n'] ++ after))).value.stream.map Token.unplaced =
      (lexText "t.c" (before ++ after)).value.stream.map Token.unplaced := by
  intro before after
  refine ⟨by decide, by decide, splice_invisible "t.c" (by decide) (by decide) ?_ (by decide)⟩
  exact fun _ => ⟨by decide, by decide, by decide⟩

end Preproc
