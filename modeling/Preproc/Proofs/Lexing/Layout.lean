import Preproc.Proofs.Lexing.Lexemes
import Preproc.Token.Layout

/-!
# Reading what was written

Tokens are written one behind the other, with a space or a new line between some of them. Reading
the text again gives the same tokens if each of them is a spelling and none sticks to what is
written behind it, and in no other case: a comment that arises between two tokens takes characters
that are then missing, and a literal that is not closed is no token.

## Key results

- `lexemes_written_iff`: spellings are read as they were written just if none sticks to the next
- `relex_layout_iff`: which tokens are read again from the text that is written for them
-/

namespace Preproc

/-! ## The text of tokens -/

/-- What is written behind the token `t` for the tokens after it. -/
def textAfter (t : Token) : List Token → List Char
  | [] => ['\n']
  | u :: ts => (separator t u).toList ++ (u.value.toList ++ textAfter u ts)

/-- What is written for tokens. -/
def written : List Token → List Char
  | [] => []
  | t :: ts => t.value.toList ++ textAfter t ts

/-- Whether no token sticks to what is written behind it. -/
def loose : List Token → Bool
  | [] => true
  | t :: ts => !sticks t.kind t.value.toList (textAfter t ts) && loose ts

/-- The text of tokens is what is written for those before the end token. -/
private theorem toList_layout (ts : List Token) :
    (layout ts).toList = written (ts.takeWhile (·.kind ≠ .eof)) := by
  -- Behind each token stands what separates it from the next, and the next.
  have hafter : ∀ t ts, (String.join (List.zipWith (fun p u => separator p u ++ u.value) (t :: ts)
      ts) ++ "\n").toList = textAfter t ts := by
    intro t ts
    induction ts generalizing t with
    | nil => simp [textAfter]
    | cons u ts ih =>
      have hmore := ih u
      rw [String.toList_append] at hmore
      rw [String.toList_append, List.zipWith_cons_cons, String.join_cons, String.toList_append,
        List.append_assoc, hmore, String.toList_append, List.append_assoc]
      rfl
  unfold layout
  split
  · rename_i heq
    rw [heq]
    rfl
  · rename_i t rest heq
    rw [heq, String.append_assoc, String.toList_append, hafter]
    rfl

/-- What separates two tokens is blank. -/
private theorem separator_cases (t u : Token) :
    (separator t u).toList = [] ∨ (separator t u).toList = [' '] ∨
      (separator t u).toList = ['\n'] := by
  unfold separator
  split
  · exact .inr (.inr rfl)
  · split
    · exact .inr (.inl rfl)
    · exact .inl rfl

/-- The lexemes behind a token are those of the tokens after it. -/
private theorem lexemes_textAfter (t : Token) (ts : List Token) :
    lexemes (textAfter t ts) = lexemes (written ts) := by
  cases ts with
  | nil => exact lexemes_blank (.inr rfl) []
  | cons u ts =>
    show lexemes ((separator t u).toList ++ written (u :: ts)) = _
    -- Nothing, a space or a newline stands before the next token.
    rcases separator_cases t u with h | h | h
    · rw [h, List.nil_append]
    · rw [h]
      exact lexemes_blank (.inl rfl) _
    · rw [h]
      exact lexemes_blank (.inr rfl) _

/-! ## Reading it -/

/-- Nothing but blanks is written beside the values of the tokens. -/
private theorem countP_written (ts : List Token) :
    (written ts).countP isSolid = solidity (ts.map Token.face) := by
  have hafter : ∀ t ts, (textAfter t ts).countP isSolid = solidity (ts.map Token.face) := by
    intro t ts
    induction ts generalizing t with
    | nil => rfl
    | cons u ts ih =>
      -- What separates tokens is blank.
      have hblank : (separator t u).toList.countP isSolid = 0 := by
        rcases separator_cases t u with h | h | h <;> rw [h] <;> rfl
      rw [textAfter, List.countP_append, List.countP_append, hblank, ih, Nat.zero_add,
        List.map_cons, solidity_cons, Token.face]
  cases ts with
  | nil => rfl
  | cons t ts =>
    rw [written, List.countP_append, hafter, List.map_cons, solidity_cons, Token.face]

/-- Spellings are read as they were written just if none sticks to what is written behind it. -/
theorem lexemes_written_iff {ts : List Token} (h : ∀ t ∈ ts, Spelled t.kind t.value.toList)
    (hraw : ∀ t ∈ ts, t.kind ≠ .unknown ∧ (t.kind = .string → t.isRaw = false)) :
    lexemes (written ts) = ts.map Token.face ↔ loose ts = true := by
  induction ts with
  | nil => simp [written, loose]
  | cons t ts ih =>
    have hspelled := h t (by simp)
    have ih := ih (fun u hu => h u (List.mem_cons_of_mem _ hu))
      (fun u hu => hraw u (List.mem_cons_of_mem _ hu))
    obtain ⟨c, rest, hvalue, hsolid, -⟩ := hspelled.head
    have hne : t.value.toList ++ textAfter t ts ≠ [] := by simp [hvalue]
    constructor
    · intro heq
      -- No character is missing, so no comment has arisen.
      have hstarts : Trivia.starts (written (t :: ts)) = false := by
        have hcount := countP_written (t :: ts)
        rw [← heq] at hcount
        rw [written, hvalue, List.cons_append] at hcount ⊢
        exact starts_of_solidity hsolid hcount.symm
      rw [written] at heq hstarts
      rw [lexemes_of_starts hstarts hne, List.map_cons, List.cons.injEq] at heq
      obtain ⟨hface, hmore⟩ := heq
      obtain ⟨hkind, hfirst⟩ := Prod.mk.inj hface
      have htake := congrArg String.toList hfirst
      rw [String.toList_ofList] at htake
      have hspells := spells_take hstarts (hkind ▸ (hraw t (by simp)).1) (by
        rw [hkind, htake]
        intro hstring
        simpa [Token.isRaw, Token.encoding] using (hraw t (by simp)).2 hstring)
      have hdrop : (t.value.toList ++ textAfter t ts).drop
          (lexemeAt (t.value.toList ++ textAfter t ts)).length = textAfter t ts := by
        rw [hspells.length, htake, List.drop_left]
      rw [hdrop, lexemes_textAfter] at hmore
      have hloose := hspells.loose
      rw [hkind, htake, hdrop] at hloose
      rw [loose, hloose, ih.1 hmore]
      rfl
    · -- A spelling that does not stick is read as it is, and the others behind it.
      intro hloose
      rw [loose, Bool.and_eq_true, Bool.not_eq_true'] at hloose
      have hstarts := starts_append hspelled hloose.1
      have hread := lexemeAt_append hspelled hloose.1
      rw [written, lexemes_of_starts hstarts hne, hread]
      simp only [List.take_left, List.drop_left, String.ofList_toList]
      rw [lexemes_textAfter, ih.2 hloose.2]
      rfl

/-! ## Line endings -/

/-- Nothing that is written for spellings joins two lines. -/
private theorem splice_written {ts : List Token} (h : ∀ t ∈ ts, Spelled t.kind t.value.toList) :
    splice (written ts) = written ts := by
  -- The line that is being written goes on until the next newline.
  have hline : ∀ line t ts, '\n' ∉ line → line.getLast? ≠ some '\\' →
      (∀ t ∈ ts, Spelled t.kind t.value.toList) →
      splice (line ++ textAfter t ts) = line ++ textAfter t ts := by
    intro line t ts hnewline hlast hts
    induction ts generalizing line t with
    | nil => exact splice_append_cons hnewline hlast []
    | cons u ts ih =>
      have hu := hts u (by simp)
      have hmore : ∀ v ∈ ts, Spelled v.kind v.value.toList :=
        fun v hv => hts v (List.mem_cons_of_mem _ hv)
      -- A spelling holds no newline and does not end in a backslash, so it goes on with the line.
      obtain ⟨hnewline', hlast'⟩ := hu.smooth
      have hsame : ∀ sep, '\n' ∉ sep →
          splice (line ++ (sep ++ (u.value.toList ++ textAfter u ts))) =
            line ++ (sep ++ (u.value.toList ++ textAfter u ts)) := by
        intro sep hsep
        have hend : (line ++ (sep ++ u.value.toList)).getLast? ≠ some '\\' := by
          obtain ⟨c, rest, hvalue, -⟩ := hu.head
          rw [← List.append_assoc, List.getLast?_append_of_ne_nil _ (by simp [hvalue])]
          exact hlast'
        have hnext := ih (line ++ (sep ++ u.value.toList)) u (by simp [*]) hend hmore
        simpa using hnext
      rw [textAfter]
      rcases separator_cases t u with hsep | hsep | hsep
      · exact hsep ▸ hsame [] (by simp)
      · exact hsep ▸ hsame [' '] (by decide)
      · rw [hsep, List.singleton_append, splice_append_cons hnewline hlast,
          ih _ u hnewline' hlast' hmore]
  cases ts with
  | nil => rfl
  | cons t ts =>
    obtain ⟨hnewline, hlast⟩ := (h t (by simp)).smooth
    exact hline _ t ts hnewline hlast (fun u hu => h u (List.mem_cons_of_mem _ hu))

/-- No carriage return is written if no token holds one. -/
private theorem cr_notMem_written {ts : List Token} (h : ∀ t ∈ ts, '\r' ∉ t.value.toList) :
    '\r' ∉ written ts := by
  -- The text behind a token, whatever the token is.
  have hafter : ∀ t ts, (∀ t ∈ ts, '\r' ∉ t.value.toList) → '\r' ∉ textAfter t ts := by
    intro t ts hts
    induction ts generalizing t with
    | nil => simp [textAfter]
    | cons u ts ih =>
      have hsep : '\r' ∉ (separator t u).toList := by
        rcases separator_cases t u with hsep | hsep | hsep <;> rw [hsep] <;> decide
      have hmore := ih u (fun v hv => hts v (List.mem_cons_of_mem _ hv))
      simp [textAfter, hsep, hts u, hmore]
  cases ts with
  | nil => decide
  | cons t ts =>
    have hmore := hafter t ts (fun u hu => h u (List.mem_cons_of_mem _ hu))
    simp [written, h t, hmore]

/-- The text that is written for tokens is read as the same tokens, just if each of them is a
spelling without a line ending, and none sticks to what is written behind it. -/
theorem relex_layout_iff {ts : List Token}
    (hplain : ∀ t ∈ ts.takeWhile (·.kind ≠ .eof), t.kind ≠ .unknown ∧
      (t.kind = .string → t.isRaw = false)) :
    (relex (layout ts).toList).value.map Token.face =
        (ts.takeWhile (·.kind ≠ .eof)).map Token.face ↔
      (∀ t ∈ ts.takeWhile (·.kind ≠ .eof), Spelled t.kind t.value.toList ∧
        '\r' ∉ t.value.toList) ∧ loose (ts.takeWhile (·.kind ≠ .eof)) = true := by
  rw [face_relex, toList_layout]
  generalize ts.takeWhile (·.kind ≠ .eof) = ts at *
  -- The text that is written for spellings is its own logical text.
  have hlogical : (∀ t ∈ ts, Spelled t.kind t.value.toList ∧ '\r' ∉ t.value.toList) →
      logicalText (written ts) = written ts := by
    intro h
    rw [logicalText, normalizeNewlines_of_notMem (cr_notMem_written fun t ht => (h t ht).2),
      splice_written fun t ht => (h t ht).1]
  constructor
  · intro heq
    -- What is read are spellings, so the tokens must have been ones.
    have hspelled : ∀ t ∈ ts, Spelled t.kind t.value.toList ∧ '\r' ∉ t.value.toList := by
      intro t ht
      have hmem : t.face ∈ lexemes (logicalText (written ts)) := by
        rw [heq]
        exact List.mem_map_of_mem ht
      obtain ⟨hknown, hraw⟩ := hplain t ht
      refine ⟨spelled_of_mem_lexemes hmem hknown ?_, ?_⟩
      · intro hstring
        simpa [Token.isRaw, Token.encoding] using hraw hstring
      · exact fun hcr => cr_notMem_logicalText _ (subset_of_mem_lexemes hmem hcr)
    rw [hlogical hspelled] at heq
    exact ⟨hspelled, (lexemes_written_iff (fun t ht => (hspelled t ht).1) hplain).1 heq⟩
  · rintro ⟨hspelled, hloose⟩
    rw [hlogical hspelled]
    exact (lexemes_written_iff (fun t ht => (hspelled t ht).1) hplain).2 hloose

end Preproc
