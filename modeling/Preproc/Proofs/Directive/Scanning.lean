import Preproc.Directive.Grammar

/-!
# Readers that share a position

The tokens of a line can be read with one position that all readers move. A reader moves it over
what it takes. Where a reader fails, the position stays wherever it got to, and whoever reads on has
to put it back first: `orBack` does, a plain choice `<|>` does not.

A reader by position follows a reader of the tokens that remain if it takes the same, stops where
the tokens that are left remain, and notes the same (`Scan.Reads`). Sequences follow sequences.
Choices follow choices if the position is put back, or if the first reader does that by itself
(`Scan.Restores`).

## Key results

- `Remains.eq_sub`: the tokens that remain tell the position
- `Scan.Reads.bind`, `Scan.Reads.orBack`, `Scan.Reads.orElse`: sequences and choices
- `Scan.Reads.runAt_eq`: all of an outcome, where failures put the position back
- `Scan.reads_expect_bind`: reading that starts with one token
-/

namespace Preproc

/-- A noted value is its value and its notes. -/
theorem Noted.ext {α : Type} {x y : Noted α} (hvalue : x.value = y.value)
    (hnotes : x.notes = y.notes) : x = y := by
  obtain ⟨a, ns⟩ := x
  cases hvalue
  cases hnotes
  rfl

/-! ## Positions -/

/-- At position `pos` of the line, `rest` remains of it. -/
structure Remains (line : List Token) (pos : Nat) (rest : List Token) : Prop where
  le : pos ≤ line.length
  drop : line.drop pos = rest

namespace Remains

variable {line rest : List Token} {pos : Nat}

/-- At the start all of the line remains. -/
theorem start (line : List Token) : Remains line 0 line :=
  ⟨Nat.zero_le _, List.drop_zero⟩

/-- At the end of the line nothing remains. -/
theorem finish (line : List Token) : Remains line line.length [] :=
  ⟨Nat.le_refl _, List.drop_length⟩

/-- What is behind the position and what remains are the whole line. -/
theorem length_eq (h : Remains line pos rest) : pos + rest.length = line.length := by
  rw [← h.drop, List.length_drop]
  exact Nat.add_sub_cancel' h.le

/-- What remains tells the position. -/
theorem eq_sub (h : Remains line pos rest) : pos = line.length - rest.length :=
  Nat.eq_sub_of_add_eq h.length_eq

/-- Behind some tokens those after them remain. -/
theorem skip (ts : List Token) (h : Remains line pos (ts ++ rest)) :
    Remains line (pos + ts.length) rest := by
  constructor
  · have hlength := h.length_eq
    rw [List.length_append] at hlength
    omega
  · rw [← List.drop_drop, h.drop, List.drop_left]

/-- Behind the next token those after it remain. -/
theorem next {t : Token} (h : Remains line pos (t :: rest)) : Remains line (pos + 1) rest :=
  skip [t] h

/-- A position at which a token follows is one of the line. -/
theorem of_drop_cons {t : Token} (h : line.drop pos = t :: rest) :
    Remains line pos (t :: rest) := by
  refine ⟨Nat.le_of_not_le fun hle => ?_, h⟩
  cases (List.drop_eq_nil_of_le hle).symm.trans h

/-- What remains is an end of the line. -/
theorem suffix (h : Remains line pos rest) : rest <:+ line :=
  h.drop ▸ List.drop_suffix pos line

end Remains

/-! ## Readers -/

/-- Reads from the tokens of a line at a position. Reading that fails leaves the position where it
got to. -/
abbrev Scan := ReaderT (List Token) (OptionT (StateT Nat Noted))

namespace Scan

variable {α β : Type}

/-- What is read from a line at a position, with the position that is left. -/
def runAt (x : Scan α) (line : List Token) (pos : Nat) : Noted (Option α × Nat) :=
  x line pos

/-- The tokens that remain. -/
def ahead : Scan (List Token) := do
  return (← read).drop (← get)

/-- Takes the next token if it is wanted. -/
def expect (wanted : Token → Bool) : Scan Token := do
  match ← ahead with
  | [] => failure
  | t :: _ =>
    if wanted t then
      modify (· + 1)
      pure t
    else failure

/-- Takes the tokens before the next one at which to stop. -/
def takeUntil (stop : Token → Bool) : Scan (List Token) := do
  let ts := (← ahead).takeWhile (!stop ·)
  modify (· + ts.length)
  pure ts

/-- Takes all tokens that remain. -/
def takeRest : Scan (List Token) := do
  let ts ← ahead
  set (← read).length
  pure ts

/-- Reads `x`; if that fails, goes back and reads `y`. -/
def orBack (x y : Scan α) : Scan α := do
  let start ← get
  x <|> (do set start; y)

/-- Reads `x` if it is there. -/
def maybe (x : Scan α) : Scan (Option α) :=
  orBack (some <$> x) (pure none)

/-- Reads `x`, and goes back if that fails. -/
def restoring (x : Scan α) : Scan α :=
  orBack x failure

variable {x y : Scan α} {f : α → Scan β} {line rest last : List Token} {pos : Nat}

/-- A sequence reads on at the position that the first reader leaves, unless that fails. -/
theorem runAt_bind (x : Scan α) (f : α → Scan β) (line : List Token) (pos : Nat) :
    (x >>= f).runAt line pos = x.runAt line pos >>= fun r =>
      r.1.elim (pure (none, r.2)) fun a => (f a).runAt line r.2 := by
  simp only [runAt, bind, ReaderT.bind, OptionT.bind, OptionT.mk, StateT.bind]
  rcases x line pos with ⟨⟨_ | a, pos'⟩, notes⟩
  · rfl
  · rfl

/-- A choice tries the second reader where the first one failed. -/
private theorem runAt_orElse (x y : Scan α) (line : List Token) (pos : Nat) :
    (x <|> y).runAt line pos = x.runAt line pos >>= fun r =>
      r.1.elim (y.runAt line r.2) fun a => pure (some a, r.2) := by
  show OptionT.orElse (x line) (fun _ => y line) pos = _
  delta OptionT.orElse
  simp only [runAt, bind, OptionT.mk, StateT.bind]
  rcases x line pos with ⟨⟨_ | a, pos'⟩, notes⟩
  · rfl
  · rfl

private theorem runAt_orBack (x y : Scan α) (line : List Token) (pos : Nat) :
    (orBack x y).runAt line pos = x.runAt line pos >>= fun r =>
      r.1.elim (y.runAt line pos) fun a => pure (some a, r.2) :=
  runAt_orElse x (do set pos; y) line pos

/-- Looking ahead leaves the position. -/
theorem runAt_ahead (line : List Token) (pos : Nat) :
    ahead.runAt line pos = pure (some (line.drop pos), pos) := rfl

/-! ## Following the tokens that remain -/

/-- An outcome of reading by position agrees with `r`, which is read from the tokens that remain:
both take the same, the position is where the tokens that `r` leaves remain, and both note the same.
Where nothing is taken, the position is left open. -/
structure Agrees (line : List Token) (out : Noted (Option α × Nat))
    (r : Noted (Option (α × List Token))) : Prop where
  value : out.value.1 = r.value.map (·.1)
  place {a : α} {last : List Token} (h : r.value = some (a, last)) : Remains line out.value.2 last
  notes : out.notes = r.notes

/-- Reading at `pos` follows `r`. -/
def Reads (x : Scan α) (line : List Token) (pos : Nat) (r : Noted (Option (α × List Token))) :
    Prop :=
  Agrees line (x.runAt line pos) r

/-- Reading at `pos` takes `a` and leaves `last`, silently. -/
def Takes (x : Scan α) (line : List Token) (pos : Nat) (a : α) (last : List Token) : Prop :=
  x.Reads line pos (pure (some (a, last)))

/-- Reading at `pos` fails silently. -/
def Fails (x : Scan α) (line : List Token) (pos : Nat) : Prop :=
  x.Reads line pos (pure none)

/-- Reading that fails at `pos` leaves the position there. -/
def Restores (x : Scan α) (line : List Token) (pos : Nat) : Prop :=
  (x.runAt line pos).value.1 = none → (x.runAt line pos).value.2 = pos

/-- What is taken agrees if the position is where the tokens that are left remain. -/
theorem agrees_taken (h : Remains line pos last) (a : α) (notes : List Note) :
    Agrees line ⟨(some a, pos), notes⟩ ⟨some (a, last), notes⟩ := by
  refine ⟨rfl, fun hb => ?_, rfl⟩
  obtain ⟨rfl, rfl⟩ := Prod.mk.inj (Option.some.inj hb)
  exact h

/-- A reader whose outcome is known takes what it says. -/
theorem takes_of_eq {a : α} {pos' : Nat} (h : x.runAt line pos = pure (some a, pos'))
    (hlast : Remains line pos' last) : x.Takes line pos a last := by
  unfold Takes Reads
  rw [h]
  exact agrees_taken hlast a []

/-- A reader whose outcome is nothing fails, wherever it left the position. -/
theorem fails_of_eq {pos' : Nat} (h : x.runAt line pos = pure (none, pos')) :
    x.Fails line pos := by
  unfold Fails Reads
  rw [h]
  exact ⟨rfl, (fun hb => nomatch hb), rfl⟩

theorem takes_pure (h : Remains line pos rest) (a : α) : (pure a : Scan α).Takes line pos a rest :=
  takes_of_eq rfl h

theorem fails_failure : (failure : Scan α).Fails line pos :=
  fails_of_eq rfl

/-- What follows an outcome need only agree with what follows `r`. -/
theorem Agrees.bind {out : Noted (Option α × Nat)} {r : Noted (Option (α × List Token))}
    {k : Option α × Nat → Noted (Option β × Nat)}
    {k' : Option (α × List Token) → Noted (Option (β × List Token))} (h : Agrees line out r)
    (hnext : Agrees line (k (r.value.map (·.1), out.value.2)) (k' r.value)) :
    Agrees line (out >>= k) (r >>= k') := by
  have hvalue : out.value = (r.value.map (·.1), out.value.2) := Prod.ext h.value rfl
  rw [← hvalue] at hnext
  refine ⟨hnext.value, hnext.place, ?_⟩
  rw [Noted.notes_bind, Noted.notes_bind, h.notes, hnext.notes]

section Combining

variable {r s : Noted (Option (α × List Token))} {a : α}

/-- What follows reads on from the tokens that are left. -/
theorem Reads.bind {g : α → List Token → Noted (Option (β × List Token))} (hx : x.Reads line pos r)
    (hf : ∀ a last pos', r.value = some (a, last) → Remains line pos' last →
      (f a).Reads line pos' (g a last)) :
    (x >>= f).Reads line pos (r >>= fun v => v.elim (pure none) fun v => g v.1 v.2) := by
  unfold Reads
  rw [runAt_bind]
  -- Only if something was taken is there more to read.
  apply Agrees.bind hx
  cases hr : r.value with
  | none => exact fails_failure
  | some v => exact hf v.1 v.2 _ hr (hx.place hr)

/-- Behind what was taken, the rest is read. -/
theorem Takes.bind {r : Noted (Option (β × List Token))} (hx : x.Takes line pos a last)
    (hf : ∀ pos', Remains line pos' last → (f a).Reads line pos' r) :
    (x >>= f).Reads line pos r := by
  refine Reads.bind (g := fun _ _ => r) hx fun a' last' pos' h hlast => ?_
  obtain ⟨rfl, rfl⟩ := Prod.mk.inj (Option.some.inj h)
  exact hf pos' hlast

/-- A sequence fails if its first reader does. -/
theorem Fails.bind (hx : x.Fails line pos) : (x >>= f).Fails line pos :=
  Reads.bind (g := fun _ _ => pure none) hx fun _ _ _ h => nomatch h

/-- What is taken can be changed. -/
theorem Takes.map (hx : x.Takes line pos a last) (g : α → β) :
    (g <$> x).Takes line pos (g a) last :=
  hx.bind fun _ hlast => takes_pure hlast (g a)

/-- What is read can be changed, with the same notes. -/
theorem Reads.map {r : Noted (α × List Token)} (hx : x.Reads line pos (some <$> r)) (g : α → β) :
    (g <$> x).Reads line pos ((fun v => some (g v.1, v.2)) <$> r) := by
  have hsame : (some <$> r >>= fun v => v.elim (pure none) fun v => pure (some (g v.1, v.2))) =
      (fun v => some (g v.1, v.2)) <$> r := Noted.ext rfl (by simp)
  rw [← hsame]
  exact hx.bind fun a last pos' _ hlast => takes_pure hlast (g a)

/-- A choice reads on where the first reader failed. -/
private theorem Reads.orElse_at (hx : x.Reads line pos r)
    (hy : r.value = none → y.Reads line (x.runAt line pos).value.2 s) :
    (x <|> y).Reads line pos (r >>= fun v => v.elim s fun v => pure (some v)) := by
  unfold Reads
  rw [runAt_orElse]
  apply Agrees.bind hx
  cases hr : r.value with
  | none => exact hy hr
  | some v => exact takes_pure (hx.place hr) v.1

/-- A choice reads on from the start if the first reader goes back by itself. -/
theorem Reads.orElse (hx : x.Reads line pos r) (hback : x.Restores line pos)
    (hy : y.Reads line pos s) :
    (x <|> y).Reads line pos (r >>= fun v => v.elim s fun v => pure (some v)) := by
  refine hx.orElse_at fun hr => ?_
  have hnone : (x.runAt line pos).value.1 = none := by
    rw [hx.value, hr]
    rfl
  rw [hback hnone]
  exact hy

/-- A choice with a way back reads on from the start wherever the first reader fails. -/
theorem Reads.orBack (hx : x.Reads line pos r) (hy : r.value = none → y.Reads line pos s) :
    (orBack x y).Reads line pos (r >>= fun v => v.elim s fun v => pure (some v)) :=
  -- The second reader moves to `pos` first, so it does not matter where it starts.
  Reads.orElse_at (y := do set pos; y) hx hy

/-- If the first reader takes something, then so does the choice. -/
theorem Takes.orBack (hx : x.Takes line pos a last) (y : Scan α) :
    (orBack x y).Takes line pos a last :=
  Reads.orBack (s := pure none) hx fun h => nomatch h

/-- If the first reader fails, then the choice reads as the second one does. -/
theorem Fails.orBack (hx : x.Fails line pos) (hy : y.Reads line pos s) :
    (orBack x y).Reads line pos s :=
  Reads.orBack hx fun _ => hy

/-- What is there is taken. -/
theorem Takes.maybe (hx : x.Takes line pos a last) : (maybe x).Takes line pos (some a) last :=
  (hx.map some).orBack _

/-- What is not there is passed over, and the position is where it was. -/
theorem Fails.maybe (hx : x.Fails line pos) (h : Remains line pos rest) :
    (maybe x).Takes line pos none rest :=
  Fails.orBack (Fails.bind hx) (takes_pure h none)

/-- To go back after a failure changes nothing else. -/
theorem Reads.restoring (hx : x.Reads line pos r) : (restoring x).Reads line pos r := by
  -- To go back and fail is to read nothing, which adds no notes to those of `r`.
  have hsame : (r >>= fun v => v.elim (pure none) fun v => pure (some v)) = r := by
    rcases r with ⟨_ | v, notes⟩
    · exact Noted.ext rfl (List.append_nil notes)
    · exact Noted.ext rfl (List.append_nil notes)
  rw [← hsame]
  exact hx.orBack fun _ => fails_failure

/-- A reader that goes back leaves the position if it fails. -/
theorem restores_restoring (x : Scan α) (line : List Token) (pos : Nat) :
    (restoring x).Restores line pos := by
  unfold Restores
  rw [restoring, runAt_orBack, Noted.value_bind]
  cases (x.runAt line pos).value.1 with
  | none => exact fun _ => rfl
  | some a => exact fun h => nomatch h

/-- Only the first of two readers can fail, so it is enough that this one goes back. -/
theorem Restores.bind (hx : x.Restores line pos)
    (hf : ∀ a pos', ((f a).runAt line pos').value.1 ≠ none) : (x >>= f).Restores line pos := by
  unfold Restores
  rw [runAt_bind, Noted.value_bind]
  cases hvalue : (x.runAt line pos).value.1 with
  | none => exact fun _ => hx hvalue
  | some a => exact fun hnone => absurd hnone (hf a _)

/-- What is taken with the position behind it, or nothing and the position at the start. -/
def placed (line : List Token) (pos : Nat) (r : Option (α × List Token)) : Option α × Nat :=
  (r.map (·.1), r.elim pos fun v => line.length - v.2.length)

/-- Where failures go back, the tokens that remain tell the whole outcome. -/
theorem Reads.runAt_eq (hx : x.Reads line pos r) (hback : x.Restores line pos) :
    x.runAt line pos = placed line pos <$> r := by
  refine Noted.ext (Prod.ext hx.value ?_) (by rw [hx.notes, Noted.notes_map])
  rw [Noted.value_map]
  -- The position is the start after a failure, and otherwise told by what is left.
  cases hr : r.value with
  | none =>
    apply hback
    rw [hx.value, hr]
    rfl
  | some v => exact (hx.place hr).eq_sub

end Combining

/-! ## Taking tokens -/

section Taking

variable {t : Token} {wanted stop : Token → Bool}

/-- The line itself is known everywhere. -/
theorem takes_read (h : Remains line pos rest) :
    (read : Scan (List Token)).Takes line pos line rest :=
  takes_of_eq rfl h

/-- Looking ahead gives the tokens that remain, and takes none of them. -/
theorem takes_ahead (h : Remains line pos rest) : ahead.Takes line pos rest rest :=
  takes_of_eq (h.drop ▸ runAt_ahead line pos) h

/-- All tokens that remain are taken. -/
theorem takes_takeRest (h : Remains line pos rest) : takeRest.Takes line pos rest [] :=
  h.drop ▸ takes_of_eq rfl (.finish line)

/-- The tokens before the one at which to stop are taken. -/
theorem takes_takeUntil (h : Remains line pos rest) :
    (takeUntil stop).Takes line pos (rest.takeWhile (!stop ·)) (rest.dropWhile (!stop ·)) := by
  have hsplit : Remains line pos (rest.takeWhile (!stop ·) ++ rest.dropWhile (!stop ·)) := by
    rw [List.takeWhile_append_dropWhile]
    exact h
  refine takes_of_eq ?_ (hsplit.skip _)
  rw [← h.drop]
  rfl

/-- A token that is wanted is taken. -/
theorem takes_expect (h : Remains line pos (t :: rest)) (ht : wanted t = true) :
    (expect wanted).Takes line pos t rest := by
  refine takes_of_eq ?_ h.next
  rw [expect, runAt_bind, runAt_ahead, h.drop]
  show Scan.runAt (if wanted t = true then _ else _) line pos = _
  rw [if_pos ht]
  rfl

/-- A token that is not wanted stays, and so does the position. -/
theorem runAt_expect_of_not (h : (line.drop pos).head?.any wanted = false) :
    (expect wanted).runAt line pos = pure (none, pos) := by
  rw [expect, runAt_bind, runAt_ahead]
  cases hrest : line.drop pos with
  | nil => rfl
  -- The next token is seen, but not taken.
  | cons t rest =>
    rw [hrest] at h
    have ht : ¬wanted t = true := Bool.eq_false_iff.1 h
    show Scan.runAt (if wanted t = true then _ else _) line pos = _
    rw [if_neg ht]
    rfl

/-- Where the next token is not wanted, or there is none, reading fails. -/
theorem fails_expect (h : Remains line pos rest) (hrest : rest.head?.any wanted = false) :
    (expect wanted).Fails line pos :=
  fails_of_eq (runAt_expect_of_not (h.drop ▸ hrest))

/-- Reading starts with a token that is wanted, or fails. -/
theorem reads_expect_bind {f : Token → Scan β} {r : Noted (Option (β × List Token))}
    (h : Remains line pos rest)
    (htakes : ∀ t more pos', rest = t :: more → wanted t = true → Remains line pos' more →
      (f t).Reads line pos' r)
    (hother : ∀ t more, rest = t :: more → wanted t = false → r = pure none)
    (hend : rest = [] → r = pure none) : (expect wanted >>= f).Reads line pos r := by
  -- The token that is wanted comes next, another one does, or none.
  cases rest with
  | nil =>
    rw [hend rfl]
    exact Fails.bind (fails_expect h rfl)
  | cons t more =>
    cases ht : wanted t with
    | false =>
      rw [hother t more rfl ht]
      exact Fails.bind (fails_expect h ht)
    | true => exact (takes_expect h ht).bind fun pos' h' => htakes t more pos' rfl ht h'

end Taking

end Scan

end Preproc
