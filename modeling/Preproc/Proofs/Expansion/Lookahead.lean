import Preproc.Proofs.Expansion.ArgumentLists

/-!
# Looking ahead

The tokens that follow are looked at in one way and read in another. Looking ahead goes down
through the streams as they stand, and paints a token with the names of the level that it is on
(`tokensAt`). Reading first drops the streams that are used up, and paints a token by the height of
what is left (`consume`). Arguments are found by looking and taken off by reading, so the two have
to agree.

They do, whatever is asked in whatever order: a stack with a stream answers as the plain list of the
tokens that follow would (`serve_lookahead`), of which reading takes the first, skipping takes some,
and looking takes none. A stack without a stream can be looked at, but not read.

## Key results

- `lookahead_eq_levels`: the tokens that follow, level by level
- `next?_eq_some_iff`: a token is read from the first stream that is left, painted by its height
- `serve_lookahead`: what one request is answered, and what follows after it
- `lookahead_agrees`: looking ahead and reading see the same tokens
-/

namespace Preproc

namespace Stack

/-! ## Levels -/

/-- The tokens left in the stream at `level`, counted from the last, with the paint of that
level. -/
def tokensAt (s : Stack) (level : Nat) : List Token :=
  s.reverse[level]?.elim [] fun f => f.rest.map (paintWith (s.paintedAt level))

private theorem paintedAt_height (f : Frame) (fs : Stack) :
    paintedAt (f :: fs) fs.length = painted (f :: fs) := by
  simp [paintedAt]

/-- A stream on top does not change what is painted below it. -/
theorem paintedAt_cons (f : Frame) {fs : Stack} {level : Nat} (h : level < fs.length) :
    paintedAt (f :: fs) level = paintedAt fs level := by
  have hdrop : (f :: fs).length - (level + 1) = fs.length - (level + 1) + 1 := by
    rw [List.length_cons]
    omega
  rw [paintedAt, hdrop, List.drop_succ_cons, paintedAt]

/-- At the height of the first stream are its own tokens. -/
private theorem tokensAt_height (f : Frame) (fs : Stack) :
    tokensAt (f :: fs) fs.length = f.rest.map (paint (f :: fs)) := by
  have hget : (f :: fs).reverse[fs.length]? = some f := by simp
  rw [tokensAt, hget, paintedAt_height]
  rfl

/-- A stream on top does not change the tokens of the levels below it. -/
theorem tokensAt_cons (f : Frame) {fs : Stack} {level : Nat} (h : level < fs.length) :
    tokensAt (f :: fs) level = tokensAt fs level := by
  have hget : (f :: fs).reverse[level]? = fs.reverse[level]? := by
    rw [List.reverse_cons, List.getElem?_append_left (by simpa using h)]
  rw [tokensAt, hget, paintedAt_cons f h, tokensAt]

/-- The tokens that follow are those of each level, from the first stream down to the last. -/
theorem lookahead_eq_levels (s : Stack) :
    s.lookahead = (List.range s.length).reverse.flatMap s.tokensAt := by
  induction s with
  | nil => rfl
  | cons f fs ih =>
    -- Levels are counted from the bottom, so those below are not renumbered.
    have hbelow : (List.range fs.length).reverse.flatMap (tokensAt (f :: fs)) =
        (List.range fs.length).reverse.flatMap (tokensAt fs) := by
      rw [List.flatMap_def, List.flatMap_def]
      congr 1
      refine List.map_congr_left fun level hlevel => ?_
      rw [List.mem_reverse, List.mem_range] at hlevel
      exact tokensAt_cons f hlevel
    rw [lookahead, ih, List.length_cons, List.range_succ, List.reverse_concat, List.flatMap_cons,
      tokensAt_height, hbelow]

/-! ## Reading -/

/-- A token is read from the first stream if that is not used up. -/
private theorem consume_of_rest {f : Frame} {t : Token} {ts : List Token} (h : f.rest = t :: ts)
    (fs : Stack) : consume (f :: fs) =
      .ok (some (paint (f :: fs) t), { f with consumed := f.consumed + 1, rest := ts } :: fs) := by
  have hsettle : settle (f :: fs) = f :: fs := by
    cases fs with
    | nil => rfl
    | cons g gs => simp [settle, h]
  simp only [consume, hsettle, h, paintedAt_height]
  rfl

/-- A stream that is used up is dropped if there is another. -/
private theorem consume_of_used {f : Frame} (h : f.rest = []) (g : Frame) (fs : Stack) :
    consume (f :: g :: fs) = consume (g :: fs) := by
  have hsettle : settle (f :: g :: fs) = settle (g :: fs) := by simp [settle, h]
  simp only [consume, hsettle]

/-- Reading the next token is this. -/
private theorem consume_of_next? {s s' : Stack} {t : Token} (h : s.next? = some (t, s')) :
    s.consume = .ok (some t, s') := by
  induction s with
  | nil => simp [next?] at h
  | cons f fs ih =>
    unfold next? at h
    split at h
    · rename_i u us hf
      simp only [Option.some.injEq, Prod.mk.injEq] at h
      obtain ⟨rfl, rfl⟩ := h
      exact consume_of_rest hf fs
    · rename_i hf
      -- There is a stream below, since a token was read.
      cases fs with
      | nil => simp [next?] at h
      | cons g gs => exact (consume_of_used hf g gs).trans (ih h)

/-- At the end of all streams nothing is read, and those above the last are dropped. -/
private theorem consume_of_next?_none {s : Stack} (hs : s ≠ []) (h : s.next? = none) :
    s.consume = .ok (none, s.settle) := by
  induction s with
  | nil => exact absurd rfl hs
  | cons f fs ih =>
    unfold next? at h
    split at h
    · cases h
    · rename_i hf
      cases fs with
      -- The bottom context stays when it is used up.
      | nil => simp [consume, settle, hf]
      | cons g gs =>
        rw [consume_of_used hf, ih (List.cons_ne_nil _ _) h]
        simp [settle, hf]

/-- A token is read in both ways or in neither. -/
theorem next?_eq_some_iff {s s' : Stack} {t : Token} :
    s.next? = some (t, s') ↔ s.consume = .ok (some t, s') := by
  refine ⟨consume_of_next?, fun h => ?_⟩
  cases hnext : s.next? with
  | none =>
    -- The stack has a stream, since it can be read from.
    have hs : s ≠ [] := by
      rintro rfl
      cases h
    rw [consume_of_next?_none hs hnext] at h
    cases h
  | some first =>
    obtain ⟨u, s₁⟩ := first
    rw [consume_of_next? hnext] at h
    cases h
    rfl

/-- Dropping the streams that are used up leaves the tokens that follow. -/
private theorem lookahead_settle (s : Stack) : s.settle.lookahead = s.lookahead := by
  fun_induction settle s with
  | case1 => rfl
  | case2 => rfl
  | case3 f g fs hf ih =>
    rw [ih]
    simp [lookahead, List.isEmpty_iff.1 hf]
  | case4 => rfl

/-- The last stream is never dropped. -/
theorem settle_ne_nil {s : Stack} (hs : s ≠ []) : s.settle ≠ [] := by
  fun_induction settle s with
  | case1 => exact hs
  | case2 => exact hs
  | case3 f g fs hf ih => exact ih (List.cons_ne_nil _ _)
  | case4 => exact hs

/-- A token that is read leaves its stream. -/
private theorem ne_nil_of_next? {s s' : Stack} {t : Token} (h : s.next? = some (t, s')) :
    s' ≠ [] := by
  fun_induction next? s with
  | case1 => cases h
  | case2 f fs u us hf =>
    cases h
    exact List.cons_ne_nil _ _
  | case3 f fs hf ih => exact ih h

/-- Reading takes the first of the tokens that follow, if there is one. -/
private theorem consume_lookahead {s : Stack} (hs : s ≠ []) :
    ∃ s', s.consume = .ok (s.lookahead.head?, s') ∧ s'.lookahead = s.lookahead.tail ∧ s' ≠ [] := by
  cases hnext : s.next? with
  | none =>
    -- No context has a token left, and the stack is cut down to its bottom.
    have hempty := lookahead_of_next?_none hnext
    refine ⟨s.settle, ?_, ?_, settle_ne_nil hs⟩
    · rw [consume_of_next?_none hs hnext, hempty]
      rfl
    · rw [lookahead_settle, hempty]
      rfl
  | some first =>
    obtain ⟨t, s₁⟩ := first
    rw [consume_of_next? hnext, lookahead_of_next? hnext]
    exact ⟨s₁, rfl, rfl, ne_nil_of_next? hnext⟩

/-- What is left has fewer tokens if one was read. -/
private theorem remaining_of_consume {s s' : Stack} {t : Token} (h : s.consume = .ok (some t, s')) :
    s'.remaining < s.remaining := by
  have hremaining := remaining_of_next? (next?_eq_some_iff.2 h)
  omega

/-- The tokens that are read, one after the other, until there is none. -/
def readAll (s : Stack) : Except Fault (List Token) :=
  match _h : s.consume with
  | .error e => .error e
  | .ok (none, _) => .ok []
  | .ok (some t, s') => (readAll s').map (t :: ·)
termination_by s.remaining
decreasing_by exact remaining_of_consume _h

/-- The tokens that are read are those that follow. -/
theorem readAll_eq {s : Stack} (hs : s ≠ []) : s.readAll = .ok s.lookahead := by
  fun_induction readAll s with
  | case1 s e h =>
    obtain ⟨s', hread, -⟩ := consume_lookahead hs
    cases h.symm.trans hread
  | case2 s s' h =>
    -- Nothing is read only if nothing follows.
    obtain ⟨s₁, hread, -⟩ := consume_lookahead hs
    have hhead := h.symm.trans hread
    simp only [Except.ok.injEq, Prod.mk.injEq] at hhead
    rw [List.head?_eq_none_iff.1 hhead.1.symm]
  | case3 s t s' h ih =>
    have hnext := next?_eq_some_iff.2 h
    rw [ih (ne_nil_of_next? hnext), lookahead_of_next? hnext]
    rfl

/-- Skipping leaves the tokens that follow without the first. -/
private theorem lookahead_skip (n : Nat) {s : Stack} (hs : s ≠ []) :
    ∃ s', s.skip n = .ok s' ∧ s'.lookahead = s.lookahead.drop n ∧ s' ≠ [] := by
  induction n generalizing s with
  | zero => exact ⟨s, rfl, rfl, hs⟩
  | succ n ih =>
    -- Each token that is skipped is read, so it is the first of those that follow.
    obtain ⟨s₁, hread, hrest, hs₁⟩ := consume_lookahead hs
    obtain ⟨s', hskip, hleft, hs'⟩ := ih hs₁
    refine ⟨s', ?_, ?_, hs'⟩
    · simp only [skip, hread]
      exact hskip
    · rw [hleft, hrest, List.drop_tail]

/-- Reading drops the streams that are used up, so it does not matter if that has been done. -/
private theorem consume_settle (s : Stack) : s.settle.consume = s.consume := by
  have hsettle : s.settle.settle = s.settle := by
    fun_induction settle s with
    | case1 => rfl
    | case2 => rfl
    | case3 f g fs hf ih => exact ih
    | case4 f g fs hf => simp [settle, hf]
  simp only [consume, hsettle]

/-- Nothing more is read at the end of all streams. -/
private theorem skip_settle {s : Stack} (hs : s ≠ []) (h : s.next? = none) (n : Nat) :
    s.settle.skip n = .ok s.settle := by
  induction n with
  | zero => rfl
  | succ n ih =>
    simp only [skip, consume_settle, consume_of_next?_none hs h]
    exact ih

/-- Reading several tokens at once skips them. -/
theorem skip_eq (n : Nat) {s : Stack} (hs : s ≠ []) : s.skip n = .ok (s.take n).2 := by
  induction n generalizing s with
  | zero => rfl
  | succ n ih =>
    cases hnext : s.next? with
    -- There is nothing left to skip.
    | none =>
      simp only [skip, take, hnext, consume_of_next?_none hs hnext]
      exact skip_settle hs hnext n
    | some first =>
      obtain ⟨t, s₁⟩ := first
      simp only [skip, take, hnext, consume_of_next? hnext]
      exact ih (ne_nil_of_next? hnext)

/-- Reading several tokens at once gives the first of those that follow. -/
theorem take_eq (n : Nat) (s : Stack) : (s.take n).1 = s.lookahead.take n := by
  induction n generalizing s with
  | zero => simp [take]
  | succ n ih =>
    cases hnext : s.next? with
    -- At the end there is nothing more to give.
    | none => simp [take, hnext, lookahead_of_next?_none hnext]
    | some first =>
      obtain ⟨t, s₁⟩ := first
      simp [take, hnext, ih, lookahead_of_next? hnext]

/-- The token that comes next is the first of those that follow. -/
private theorem peek?_eq_head? (s : Stack) : s.peek? = s.lookahead.head? := by
  cases hnext : s.next? with
  | none => simp [peek?, hnext, lookahead_of_next?_none hnext]
  | some first => simp [peek?, hnext, lookahead_of_next? hnext]

/-! ## Any order of requests -/

/-- A way to get at the tokens that follow. -/
inductive Access where
  | consume
  | lookahead
  | peek
  | skip (n : Nat)
deriving DecidableEq, Repr

/-- What a stack gives, and what is left of it. -/
def serve (s : Stack) : Access → Except Fault (List Token × Stack)
  | .consume => s.consume.map fun (t, s') => (t.toList, s')
  | .lookahead => .ok (s.lookahead, s)
  | .peek => .ok (s.peek?.toList, s)
  | .skip n => (s.skip n).map ([], ·)

/-- What a list of tokens gives, and what is left of it: only reading and skipping take tokens
away. -/
def Access.ofTokens (ts : List Token) : Access → List Token × List Token
  | consume => (ts.take 1, ts.drop 1)
  | lookahead => (ts, ts)
  | peek => (ts.take 1, ts)
  | skip n => ([], ts.drop n)

/-- What is given for each of the requests, one after the other. -/
def Access.replies {σ : Type} (serve : σ → Access → Except Fault (List Token × σ)) :
    List Access → σ → Except Fault (List (List Token))
  | [], _ => .ok []
  | a :: rest, s =>
    match serve s a with
    | .ok (reply, s') => (replies serve rest s').map (reply :: ·)
    | .error e => .error e

/-- A stack gives what the list of the tokens that follow does, and the same follows afterwards. -/
theorem serve_lookahead {s : Stack} (hs : s ≠ []) (a : Access) :
    ∃ s', s.serve a = .ok ((a.ofTokens s.lookahead).1, s') ∧
      s'.lookahead = (a.ofTokens s.lookahead).2 ∧ s' ≠ [] := by
  cases a with
  | consume =>
    obtain ⟨s', hread, hrest, hs'⟩ := consume_lookahead hs
    refine ⟨s', ?_, ?_, hs'⟩
    · simp [serve, Access.ofTokens, hread, Except.map, List.take_one]
    · simp [Access.ofTokens, hrest]
  | lookahead => exact ⟨s, rfl, rfl, hs⟩
  | peek =>
    refine ⟨s, ?_, rfl, hs⟩
    simp [serve, Access.ofTokens, peek?_eq_head?, List.take_one]
  | skip n =>
    obtain ⟨s', hskip, hrest, hs'⟩ := lookahead_skip n hs
    refine ⟨s', ?_, hrest, hs'⟩
    simp [serve, Access.ofTokens, hskip, Except.map]

/-- Any number of requests is answered by a stack as by the tokens that are left on it. -/
theorem replies_eq (requests : List Access) {s : Stack} (hs : s ≠ []) :
    Access.replies serve requests s =
      Access.replies (fun ts a => .ok (a.ofTokens ts)) requests s.lookahead := by
  induction requests generalizing s with
  | nil => rfl
  | cons a rest ih =>
    obtain ⟨s', hreply, hrest, hs'⟩ := serve_lookahead hs a
    simp only [Access.replies, hreply, ih hs', hrest]

/-- The tokens that are looked at, level by level through the streams as they stand, are those that
are read until there is none. The first of them comes next, and skipping some leaves the others. So
whatever has been looked at, read or skipped before, a stack gives what the list of these tokens
would, from which looking takes nothing away. All of this needs a stream: without one nothing
follows, and neither reading nor skipping is possible. -/
theorem lookahead_agrees (s : Stack) :
    s.lookahead = (List.range s.length).reverse.flatMap s.tokensAt ∧
    (∀ t s', s.next? = some (t, s') ↔ s.consume = .ok (some t, s')) ∧
    s.peek? = s.lookahead.head? ∧ (∀ n, (s.take n).1 = s.lookahead.take n) ∧
    (s ≠ [] → s.readAll = .ok s.lookahead ∧
      (∀ n, ∃ s', s.skip n = .ok s' ∧ s' = (s.take n).2 ∧ s'.lookahead = s.lookahead.drop n) ∧
      ∀ requests, Access.replies serve requests s =
        Access.replies (fun ts a => .ok (a.ofTokens ts)) requests s.lookahead) ∧
    (s = [] → s.lookahead = [] ∧ s.readAll = .error .noStream ∧
      ∀ n, s.skip (n + 1) = .error .noStream) := by
  refine ⟨lookahead_eq_levels s, fun t s' => next?_eq_some_iff, peek?_eq_head? s,
    fun n => take_eq n s, fun hs => ?_, ?_⟩
  · refine ⟨readAll_eq hs, fun n => ?_, fun requests => replies_eq requests hs⟩
    obtain ⟨s', hskip, hrest, -⟩ := lookahead_skip n hs
    have hsame := hskip.symm.trans (skip_eq n hs)
    exact ⟨s', hskip, Except.ok.inj hsame, hrest⟩
  · -- Without a stream there is nothing to look at, and no stream to read from.
    rintro rfl
    refine ⟨rfl, ?_, fun n => rfl⟩
    rw [readAll]
    rfl

end Stack

end Preproc
