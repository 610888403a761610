import Preproc.Lexeme

/-!
# Gaps

Between two tokens stand blanks, newlines and comments. `Trivia` are the pieces of such a gap, and
`Trivia.Fills ps after` says that `ps` are all the pieces that stand before the text `after`: a
comment reaches exactly to its end, and `after` starts with no further piece.

The gap that a text starts with is measured in one pass, without its pieces. `fills_gapAt` says that
the measure is right.

## Key results

- `offsetOf?_eq_some`, `offsetOf?_eq_none`: a mark is found where it first occurs
- `fills_gapAt`: the length of a gap and whether a line ends in it are those of its pieces
-/

namespace Preproc

/-! ## Searching -/

/-- A mark that is found is at the offset, and at no offset before it. -/
private theorem offsetOf?_go_eq_some {mark cs : List Char} {start n : Nat}
    (h : offsetOf?.go mark start cs = some n) :
    ∃ before after, cs = before ++ (mark ++ after) ∧ n = start + before.length ∧
      ∀ k < before.length, ¬mark <+: cs.drop k := by
  induction cs generalizing start with
  | nil =>
    unfold offsetOf?.go at h
    split at h
    · -- An empty mark is found at the end too.
      rename_i hmark
      rw [List.isEmpty_iff] at hmark
      rw [Option.some.injEq] at h
      refine ⟨[], [], by simp [hmark], by simp [h], ?_⟩
      intro k hk
      simp at hk
    · simp at h
  | cons c cs ih =>
    unfold offsetOf?.go at h
    split at h
    · rename_i hmark
      obtain ⟨after, hafter⟩ := List.isPrefixOf_iff_prefix.1 hmark
      rw [Option.some.injEq] at h
      refine ⟨[], after, by simp [hafter], by simp [h], ?_⟩
      intro k hk
      simp at hk
    · rename_i hmark
      obtain ⟨before, after, hcs, hn, hfirst⟩ := ih h
      refine ⟨c :: before, after, by rw [hcs, List.cons_append], ?_, ?_⟩
      · rw [hn, List.length_cons]
        omega
      · intro k hk hprefix
        cases k with
        | zero => exact hmark (List.isPrefixOf_iff_prefix.2 hprefix)
        | succ k =>
          rw [List.length_cons] at hk
          exact hfirst k (by omega) hprefix

/-- What stands before a mark that is found does not hold the mark. -/
theorem offsetOf?_eq_some {mark cs : List Char} {n : Nat} (hmark : mark ≠ [])
    (h : offsetOf? mark cs = some n) :
    ∃ before after, cs = before ++ (mark ++ after) ∧ n = before.length ∧ ¬mark <:+: before := by
  obtain ⟨before, after, hcs, hn, hfirst⟩ := offsetOf?_go_eq_some h
  refine ⟨before, after, hcs, by omega, ?_⟩
  -- Inside of `before` the mark would have been found earlier.
  rintro ⟨s, t, rfl⟩
  have hpos := List.length_pos_iff.2 hmark
  refine hfirst s.length (by simp; omega) ?_
  rw [hcs]
  simp

/-- A mark that is not found from anywhere on does not occur. -/
private theorem offsetOf?_go_eq_none {mark cs : List Char} {start : Nat} (hmark : mark ≠ [])
    (h : offsetOf?.go mark start cs = none) : ¬mark <:+: cs := by
  induction cs generalizing start with
  | nil => simpa using hmark
  | cons c cs ih =>
    unfold offsetOf?.go at h
    split at h
    · simp at h
    · -- The mark does not start here, nor later.
      rename_i hprefix
      rw [List.infix_cons_iff, not_or]
      exact ⟨fun hp => hprefix (List.isPrefixOf_iff_prefix.2 hp), ih h⟩

/-- A mark that is not found does not occur. -/
theorem offsetOf?_eq_none {mark cs : List Char} (hmark : mark ≠ []) (h : offsetOf? mark cs = none) :
    ¬mark <:+: cs :=
  offsetOf?_go_eq_none hmark h

/-- The rest of a line reaches to the next newline, or to the end of the text. -/
private theorem restOfLine_split (cs : List Char) :
    ∃ line after, cs = line ++ after ∧ restOfLine cs = line.length ∧ '\n' ∉ line ∧
      (after = [] ∨ after.head? = some '\n') := by
  refine ⟨cs.takeWhile (· ≠ '\n'), cs.dropWhile (· ≠ '\n'),
    List.takeWhile_append_dropWhile.symm, rfl, ?_, ?_⟩
  · -- The line ends before the first newline,
    intro hmem
    have hall := List.all_eq_true.1 List.all_takeWhile _ hmem
    simp at hall
  · -- and what comes behind it is that newline, or nothing.
    cases hdrop : cs.dropWhile (· ≠ '\n') with
    | nil => exact .inl rfl
    | cons c after =>
      have hc := List.head?_dropWhile_not (· ≠ '\n') cs
      rw [hdrop] at hc
      exact .inr (by simpa using hc)

/-! ## Pieces -/

/-- A piece of what stands between two tokens. -/
inductive Trivia where
  /-- White space within a line. -/
  | blank (c : Char)
  | newline
  /-- A comment up to the end of its line. -/
  | lineComment (body : List Char)
  /-- A comment between its two marks. -/
  | blockComment (body : List Char)
  /-- A comment whose closing mark is missing, up to the end of the text. -/
  | openComment (body : List Char)
deriving DecidableEq, Repr

namespace Trivia

/-- The characters of a piece. -/
def text : Trivia → List Char
  | blank c => [c]
  | newline => ['\n']
  | lineComment body => '/' :: '/' :: body
  | blockComment body => '/' :: '*' :: (body ++ ['*', '/'])
  | openComment body => '/' :: '*' :: body

/-- The characters of several pieces. -/
def texts (ps : List Trivia) : List Char :=
  ps.flatMap text

/-- Whether a text starts with a piece. -/
def starts : List Char → Bool
  | '/' :: '/' :: _ => true
  | '/' :: '*' :: _ => true
  | c :: _ => isSpace c || c = '\n'
  | [] => false

/-- Whether a piece is what it is meant to be when `after` follows it: the body of a comment does
not hold what would end it, and the comment is followed by its end. -/
def Fits : Trivia → List Char → Prop
  | blank c, _ => isSpace c = true
  | newline, _ => True
  | lineComment body, after => '\n' ∉ body ∧ (after = [] ∨ after.head? = some '\n')
  | blockComment body, _ => ¬['*', '/'] <:+: body
  | openComment body, after => ¬['*', '/'] <:+: body ∧ after = []

/-- The pieces are all that stands before `after`. -/
inductive Fills : List Trivia → List Char → Prop
  | nil {after : List Char} (full : starts after = false) : Fills [] after
  | cons {p : Trivia} {ps : List Trivia} {after : List Char} (fits : p.Fits (texts ps ++ after))
      (more : Fills ps after) : Fills (p :: ps) after

/-- No pieces have no characters. -/
@[simp]
theorem texts_nil : texts [] = [] := rfl

/-- The characters of pieces are those of the first and of the others. -/
@[simp]
theorem texts_cons (p : Trivia) (ps : List Trivia) : texts (p :: ps) = p.text ++ texts ps := rfl

end Trivia

/-! ## The gap at the start of a text -/

open Trivia

/-- The measure `g` of the gap that `cs` starts with is that of its pieces. -/
def Gap.Measures (g : Gap) (cs : List Char) : Prop :=
  ∃ ps after, cs = texts ps ++ after ∧ Fills ps after ∧ g.length = (texts ps).length ∧
    (g.newline = true ↔ Trivia.newline ∈ ps)

/-- A piece before a gap adds its characters, and a newline if it is one. -/
theorem Gap.Measures.after {g : Gap} {cs : List Char} (h : g.Measures cs) (p : Trivia)
    (hfits : p.Fits cs) :
    (g.after p.text.length (decide (p = .newline))).Measures (p.text ++ cs) := by
  obtain ⟨ps, after, rfl, hfills, hlength, hnewline⟩ := h
  refine ⟨p :: ps, after, by rw [texts_cons, List.append_assoc], .cons hfits hfills, ?_, ?_⟩
  · rw [texts_cons, List.length_append, ← hlength]
    rfl
  · show (decide (p = .newline) || g.newline) = true ↔ Trivia.newline ∈ p :: ps
    rw [Bool.or_eq_true, decide_eq_true_iff, hnewline, List.mem_cons, eq_comm]

/-- The gap that a text starts with is measured as its pieces are. -/
theorem fills_gapAt (cs : List Char) : (gapAt cs).Measures cs := by
  fun_induction gapAt cs with
  | case1 => exact ⟨[], [], rfl, .nil rfl, rfl, by simp⟩
  -- A comment up to the end of its line.
  | case2 rest ih =>
    obtain ⟨line, after, rfl, hlen, hline, hend⟩ := restOfLine_split rest
    rw [hlen, List.drop_left] at ih ⊢
    have h := ih.after (.lineComment line) ⟨hline, hend⟩
    rwa [Trivia.text, List.length_cons, List.length_cons, Nat.add_assoc, Nat.add_comm] at h
  -- A comment whose closing mark is found.
  | case3 rest n hn ih =>
    obtain ⟨before, after, rfl, rfl, hbefore⟩ := offsetOf?_eq_some (by simp) hn
    have hdrop : (before ++ (['*', '/'] ++ after)).drop (before.length + 2) = after := by simp
    rw [hdrop] at ih ⊢
    have h := ih.after (.blockComment before) hbefore
    simpa [Trivia.text] using h
  -- A comment that is not closed takes all that is left.
  | case4 rest hn =>
    have hbody := offsetOf?_eq_none (by simp) hn
    refine ⟨[.openComment rest], [], by simp [Trivia.text], ?_, ?_, by simp⟩
    · exact .cons ⟨hbody, rfl⟩ (.nil rfl)
    · simp only [texts_cons, texts_nil, Trivia.text, List.append_nil, List.length_cons]
      omega
  | case5 c rest _ _ hspace ih => exact ih.after (.blank c) hspace
  | case6 rest _ _ _ ih => exact ih.after .newline trivial
  -- Anything else is no piece, and the gap ends before it.
  | case7 c rest hline hblock hspace hnewline =>
    refine ⟨[], c :: rest, rfl, .nil ?_, rfl, by simp⟩
    unfold starts
    split <;> simp_all

end Preproc
