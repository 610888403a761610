import Preproc.Expansion

/-!
# Reading from the stack

What reading can do to the stack of streams is said once: `Stack.Advances s s'` holds if `s'` is
left of `s` after some tokens have been read and streams that were used up have been dropped. Every
way of reading advances the stack, so the names painted afterwards are among the names painted
before.

A name that is read is checked against the streams below it. `Stack.Marks s ts` says that this has
been done for all of `ts` and the names painted on `s`.

## Key results

- `Stack.Advances.painted_suffix`: reading only takes names off the painted ones
- `Stack.marks_of_collect`: the names painted after an argument list are marked in its arguments
- `Expander.invokes_of_move`: all that is known of an invocation when it has been read
-/

namespace Preproc

namespace Stack

/-! ## Advancing -/

/-- `s'` is left of `s` after some tokens have been read. The last stream is never dropped. -/
inductive Advances : Stack → Stack → Prop
  | refl (s : Stack) : Advances s s
  | drop {f : Frame} {fs s' : Stack} (used : f.rest = []) (more : fs ≠ [])
      (rest : Advances fs s') : Advances (f :: fs) s'
  | read {f : Frame} {fs s' : Stack} {t : Token} {ts : List Token} (next : f.rest = t :: ts)
      (rest : Advances ({ f with consumed := f.consumed + 1, rest := ts } :: fs) s') :
      Advances (f :: fs) s'

/-- Reading goes on where it has stopped. -/
theorem Advances.trans {s₁ s₂ s₃ : Stack} (h₁ : Advances s₁ s₂) (h₂ : Advances s₂ s₃) :
    Advances s₁ s₃ := by
  induction h₁ with
  | refl => exact h₂
  | drop used more _ ih => exact .drop used more (ih h₂)
  | read next _ ih => exact .read next (ih h₂)

/-- Reading never drops the last stream. -/
theorem Advances.ne_nil {s s' : Stack} (h : Advances s s') (hs : s ≠ []) : s' ≠ [] := by
  induction h with
  | refl => exact hs
  | drop _ more _ ih => exact ih more
  | read _ _ ih => exact ih (by simp)

/-- Reading from a stream does not change the painted names: they depend on the owners only. -/
theorem painted_read (f : Frame) (ts : List Token) (fs : Stack) :
    painted ({ f with consumed := f.consumed + 1, rest := ts } :: fs) = painted (f :: fs) := by
  cases fs with
  | nil => rfl
  | cons g gs => rfl

/-- A stream on top adds at most its own name. -/
theorem painted_suffix_cons (f : Frame) (fs : Stack) : painted fs <:+ painted (f :: fs) := by
  cases fs with
  | nil => exact List.nil_suffix
  | cons g gs => exact List.suffix_append _ _

/-- Reading takes names off the painted ones, newest first, and adds none. -/
theorem Advances.painted_suffix {s s' : Stack} (h : Advances s s') :
    s'.painted <:+ s.painted := by
  induction h with
  | refl => exact List.suffix_rfl
  | drop _ _ _ ih => exact ih.trans (painted_suffix_cons _ _)
  | read _ _ ih =>
    rw [painted_read] at ih
    exact ih

/-- Reading the next token advances the stack. -/
theorem advances_of_next? {s s' : Stack} {t : Token} (h : s.next? = some (t, s')) :
    Advances s s' := by
  induction s with
  | nil => simp [next?] at h
  | cons f fs ih =>
    unfold next? at h
    split at h
    · rename_i u us hf
      simp only [Option.some.injEq, Prod.mk.injEq] at h
      obtain ⟨-, rfl⟩ := h
      exact .read hf (.refl _)
    · rename_i hf
      -- A stream is dropped only if another is below it, since a token is read.
      have hmore : fs ≠ [] := by
        rintro rfl
        simp [next?] at h
      exact .drop hf hmore (ih h)

/-- Dropping the streams that are used up advances the stack. -/
theorem advances_settle (s : Stack) : Advances s s.settle := by
  fun_induction settle s with
  | case1 => exact .refl _
  | case2 => exact .refl _
  | case3 f g fs hf ih => exact .drop (List.isEmpty_iff.1 hf) (by simp) ih
  | case4 => exact .refl _

/-- Reading several tokens advances the stack. -/
private theorem advances_take (n : Nat) (s : Stack) : Advances s (s.take n).2 := by
  induction n generalizing s with
  | zero => exact .refl s
  | succ n ih =>
    unfold take
    split
    · exact advances_settle s
    · rename_i t s₁ h
      exact (advances_of_next? h).trans (ih s₁)

/-- Gathering arguments advances the stack. -/
private theorem advances_of_gather {limit : Option Nat} {depth : Nat} {before : List (List Token)}
    {current : List Token} {s s' : Stack} {args : List (List Token)}
    (h : gather limit depth before current s = some (args, s')) : Advances s s' := by
  -- Each case reads one token; only the parenthesis that closes the list does not go on.
  fun_induction gather limit depth before current s with
  | case1 => simp at h
  | case2 _ _ _ _ _ _ hn _ ih => exact (advances_of_next? hn).trans (ih h)
  | case3 _ _ _ _ _ _ hn _ _ ih => exact (advances_of_next? hn).trans (ih h)
  | case4 _ _ _ _ _ _ hn _ _ _ _ =>
    simp only [Option.some.injEq, Prod.mk.injEq] at h
    obtain ⟨-, rfl⟩ := h
    exact advances_of_next? hn
  | case5 _ _ _ _ _ _ hn _ _ _ _ ih => exact (advances_of_next? hn).trans (ih h)
  | case6 _ _ _ _ _ _ hn _ _ _ ih => exact (advances_of_next? hn).trans (ih h)

/-! ## Paint -/

/-- No token of `ts` that may still be expanded has a name that is painted on `s`. -/
def Marks (s : Stack) (ts : List Token) : Prop :=
  ∀ t ∈ ts, t.isName = true → t.expandable = true → t.value ∉ s.painted

/-- What is marked stays so, since reading paints no names. -/
theorem Marks.of_advances {s s' : Stack} {ts : List Token} (h : s.Marks ts)
    (hs : Advances s s') : s'.Marks ts := by
  intro t ht hname hexp hmem
  exact h t ht hname hexp (hs.painted_suffix.subset hmem)

/-- No token need be marked where there is none. -/
theorem marks_nil (s : Stack) : s.Marks [] := by
  intro t ht
  simp at ht

/-- One more token is marked if it is on its own. -/
theorem Marks.cons {s : Stack} {t : Token} {ts : List Token} (h : s.Marks [t])
    (hs : s.Marks ts) : s.Marks (t :: ts) := by
  intro u hu
  cases List.mem_cons.1 hu with
  | inl heq => exact heq ▸ h t (List.mem_singleton.2 rfl)
  | inr hmem => exact hs u hmem

/-- The order of tokens does not matter. -/
theorem Marks.reverse {s : Stack} {ts : List Token} (h : s.Marks ts) : s.Marks ts.reverse := by
  intro t ht
  exact h t (List.mem_reverse.1 ht)

/-- What is read as a name to be expanded is not painted. -/
private theorem marks_paint (s : Stack) (t : Token) : s.Marks [s.paint t] := by
  intro u hu hname hexp hmem
  rw [List.mem_singleton] at hu
  subst hu
  unfold paint at hname hexp hmem
  split at hexp
  · -- With paint it is no longer a name to be expanded.
    simp [Token.paint] at hexp
  · rename_i hnot
    rw [if_neg hnot] at hname hmem
    simp [hname, hexp, hmem] at hnot

/-- The token that is read is marked. -/
theorem marks_of_next? {s s' : Stack} {t : Token} (h : s.next? = some (t, s')) :
    s'.Marks [t] := by
  induction s with
  | nil => simp [next?] at h
  | cons f fs ih =>
    unfold next? at h
    split at h
    · rename_i u us hf
      simp only [Option.some.injEq, Prod.mk.injEq] at h
      obtain ⟨rfl, rfl⟩ := h
      -- The token is painted before the stream moves on, which leaves no more names painted.
      exact (marks_paint (f :: fs) u).of_advances (.read hf (.refl _))
    · exact ih h

/-- The arguments that are gathered are marked with the names painted afterwards. While they are
gathered, what was read before stays marked because paint is only taken off. -/
private theorem marks_of_gather {limit : Option Nat} {depth : Nat} {before : List (List Token)}
    {current : List Token} {s s' : Stack} {args : List (List Token)}
    (h : gather limit depth before current s = some (args, s'))
    (hbefore : ∀ a ∈ before, s.Marks a) (hcurrent : s.Marks current) :
    ∀ a ∈ args, s'.Marks a := by
  -- One more token keeps both hypotheses, on the stack that is left.
  have hread : ∀ {s s₁ : Stack} {t : Token} {before : List (List Token)} {current : List Token},
      s.next? = some (t, s₁) → (∀ a ∈ before, s.Marks a) → s.Marks current →
      (∀ a ∈ before, s₁.Marks a) ∧ s₁.Marks current ∧ s₁.Marks (t :: current) := by
    intro s s₁ t before current hn hb hc
    have hadv := advances_of_next? hn
    have hc₁ := hc.of_advances hadv
    exact ⟨fun a ha => (hb a ha).of_advances hadv, hc₁, (marks_of_next? hn).cons hc₁⟩
  -- The argument that ends here was read in reverse.
  have hend : ∀ {s : Stack} {before : List (List Token)} {current : List Token},
      (∀ a ∈ before, s.Marks a) → s.Marks current →
      ∀ a ∈ endArgument before current, s.Marks a := by
    intro s before current hb hc a ha
    cases List.mem_cons.1 ha with
    | inl heq => exact heq ▸ hc.reverse
    | inr hmem => exact hb a hmem
  fun_induction gather limit depth before current s with
  | case1 => simp at h
  | case2 _ _ _ _ _ s₁ hn _ ih =>
    obtain ⟨hb, hc, -⟩ := hread hn hbefore hcurrent
    exact ih h (hend hb hc) (marks_nil s₁)
  | case3 _ _ _ _ _ _ hn _ _ ih =>
    obtain ⟨hb, -, hc⟩ := hread hn hbefore hcurrent
    exact ih h hb hc
  | case4 _ _ _ _ _ _ hn _ _ _ _ =>
    simp only [Option.some.injEq, Prod.mk.injEq] at h
    obtain ⟨rfl, rfl⟩ := h
    obtain ⟨hb, hc, -⟩ := hread hn hbefore hcurrent
    intro a ha
    exact hend hb hc a (List.mem_reverse.1 ha)
  | case5 _ _ _ _ _ _ hn _ _ _ _ ih =>
    obtain ⟨hb, -, hc⟩ := hread hn hbefore hcurrent
    exact ih h hb hc
  | case6 _ _ _ _ _ _ hn _ _ _ ih =>
    obtain ⟨hb, -, hc⟩ := hread hn hbefore hcurrent
    exact ih h hb hc

/-! ## Argument lists -/

/-- How an argument list is read: its opening parenthesis, then the arguments. -/
theorem gather_of_collect {s s' : Stack} {m : Macro} {args : List (List Token)}
    (h : (s.collect m).value = some (args, s')) :
    ∃ (limit : Option Nat) (t : Token) (s₁ : Stack) (found : List (List Token)),
      s.next? = some (t, s₁) ∧ gather limit 1 [] [] s₁ = some (found, s') ∧
      args = normalArguments m found ∧ m.accepts args.length = true := by
  unfold collect at h
  simp only at h
  split at h
  · simp at h
  · -- The list was closed, and the number of arguments is checked.
    rename_i found s₂ hfound
    split at h
    · rename_i haccepts
      simp only [Noted.value_pure, Option.some.injEq, Prod.mk.injEq] at h
      obtain ⟨rfl, rfl⟩ := h
      obtain ⟨⟨t, s₁⟩, hnext, hgather⟩ := Option.bind_eq_some_iff.1 hfound
      exact ⟨_, t, s₁, found, hnext, hgather, rfl, haccepts⟩
    · simp at h

/-- Reading an argument list advances the stack. -/
theorem advances_of_collect {s s' : Stack} {m : Macro} {args : List (List Token)}
    (h : (s.collect m).value = some (args, s')) : Advances s s' := by
  obtain ⟨_, _, _, _, hnext, hgather, -, -⟩ := gather_of_collect h
  exact (advances_of_next? hnext).trans (advances_of_gather hgather)

/-- Arguments are among the pieces that were found. -/
theorem mem_of_mem_normalArguments {m : Macro} {found : List (List Token)} {a : List Token}
    (h : a ∈ normalArguments m found) : a ∈ found := by
  unfold normalArguments at h
  split at h
  · simp at h
  · exact h

/-- The arguments of an invocation are marked with all names that are painted when they have been
read. -/
theorem marks_of_collect {s s' : Stack} {m : Macro} {args : List (List Token)}
    (h : (s.collect m).value = some (args, s')) : ∀ a ∈ args, s'.Marks a := by
  obtain ⟨_, _, s₁, found, -, hgather, rfl, -⟩ := gather_of_collect h
  intro a ha
  have hmarks := marks_of_gather hgather (by simp) (marks_nil s₁)
  exact hmarks a (mem_of_mem_normalArguments ha)

end Stack

/-! ## Moves -/

namespace Expander

/-- Reading the operand of `defined` advances the stack. -/
private theorem advances_defined (x : Expander) (env : Expansion) (site : Token) :
    x.stack.Advances (x.defined env site).2.stack := by
  unfold defined
  split
  · exact Stack.advances_take _ _
  · exact .refl _

/-- All that is known of the invocation `site` of `m` with the arguments `args`, when it has been
read from the state `x` and the state `y` is left. -/
structure Invokes (x : Expander) (env : Expansion) (m : Macro) (site : Token)
    (args : List (List Token)) (y : Expander) : Prop where
  isName : site.isName = true
  expandable : site.expandable = true
  found : env.macros.find? site.value = some m
  accepts : m.accepts args.length = true
  advances : x.stack.Advances y.stack
  /-- The name is not painted where it stands, so it is not painted on what is left. -/
  unpainted : site.value ∉ y.stack.painted
  marks : ∀ a ∈ args, y.stack.Marks a
  produced : y.produced = x.produced
  count : y.count = x.count

/-- What a call that is an invocation has read. -/
theorem collect_of_call {x y : Expander} {m n : Macro} {site t : Token}
    {args : List (List Token)} (h : x.call m site = .invoke n t args y) :
    n = m ∧ t = site ∧ (x.stack.collect m).value = some (args, y.stack) ∧
      y.produced = x.produced ∧ y.count = x.count := by
  unfold call at h
  split at h
  · simp only at h
    split at h
    · -- The parenthesis follows, and the arguments fit.
      rename_i args' s hc
      simp only [Move.invoke.injEq] at h
      obtain ⟨rfl, rfl, rfl, rfl⟩ := h
      exact ⟨rfl, rfl, hc, rfl, rfl⟩
    · simp at h
  · simp at h

/-- An invocation has been read from the stack, with arguments in which all painted names are
marked. -/
theorem invokes_of_move {x y : Expander} {env : Expansion} {m : Macro} {site : Token}
    {args : List (List Token)} (h : x.move env = .invoke m site args y) :
    Invokes x env m site args y := by
  unfold move at h
  split at h
  · simp at h
  · rename_i t s hnext
    have hadv := Stack.advances_of_next? hnext
    have hmarks := Stack.marks_of_next? hnext
    simp only at h
    split at h
    · simp at h
    · rename_i hplain
      simp only [Bool.or_eq_true, Bool.not_eq_true', not_or, Bool.not_eq_false] at hplain
      obtain ⟨hname, hexp⟩ := hplain
      split at h
      · simp at h
      · split at h
        · simp at h
        · rename_i n hfound
          split at h
          · -- A function-like macro has its arguments read as well.
            obtain ⟨rfl, rfl, hcollect, hproduced, hcount⟩ := collect_of_call h
            have hargs := Stack.advances_of_collect hcollect
            obtain ⟨_, _, _, _, -, -, -, haccepts⟩ := Stack.gather_of_collect hcollect
            exact {
              isName := hname
              expandable := hexp
              found := hfound
              accepts := haccepts
              advances := hadv.trans hargs
              unpainted := hmarks.of_advances hargs site (by simp) hname hexp
              marks := Stack.marks_of_collect hcollect
              produced := hproduced
              count := hcount }
          · rename_i hobject
            simp only [Move.invoke.injEq] at h
            obtain ⟨rfl, rfl, rfl, rfl⟩ := h
            -- Without a signature there are no arguments, and none are asked for.
            have hnone : n.signature? = none := by simpa [Macro.isFunctionLike] using hobject
            exact {
              isName := hname
              expandable := hexp
              found := hfound
              accepts := by simp [Macro.accepts, hnone]
              advances := hadv
              unpainted := hmarks t (by simp) hname hexp
              marks := by simp
              produced := rfl
              count := rfl }

/-- The name of an invocation is the next token, and the arguments of a function-like macro are read
behind it. -/
theorem read_of_move_invoke {x y : Expander} {env : Expansion} {m : Macro} {site : Token}
    {args : List (List Token)} (h : x.move env = .invoke m site args y) :
    ∃ s, x.stack.next? = some (site, s) ∧
      ((args = [] ∧ y.stack = s) ∨ (s.collect m).value = some (args, y.stack)) := by
  unfold move at h
  split at h
  · cases h
  · rename_i t s hnext
    simp only at h
    split at h
    · cases h
    · split at h
      · cases h
      · split at h
        · cases h
        · split at h
          · obtain ⟨rfl, rfl, hcollect, -, -⟩ := collect_of_call h
            exact ⟨s, hnext, .inr hcollect⟩
          · cases h
            exact ⟨s, hnext, .inl ⟨rfl, rfl⟩⟩

/-- Emitting a token advances the stack. -/
theorem advances_of_move_emit {x y : Expander} {env : Expansion} {t : Token}
    (h : x.move env = .emit t y) : x.stack.Advances y.stack := by
  unfold move at h
  split at h
  · simp at h
  · rename_i u s hnext
    have hadv := Stack.advances_of_next? hnext
    simp only at h
    split at h
    · -- The token is no name to be expanded.
      simp only [Move.emit.injEq] at h
      obtain ⟨-, rfl⟩ := h
      exact hadv
    · split at h
      · -- The operator `defined` reads its operand as well.
        simp only [Move.emit.injEq] at h
        obtain ⟨-, rfl⟩ := h
        exact hadv.trans (advances_defined { x with stack := s } env u)
      · split at h
        · -- The name is not defined.
          simp only [Move.emit.injEq] at h
          obtain ⟨-, rfl⟩ := h
          exact hadv
        · split at h
          · -- No argument list fits, so nothing of it has been read.
            obtain ⟨-, hstack⟩ := call_emit h
            rw [hstack]
            exact hadv
          · simp at h

end Expander

end Preproc
