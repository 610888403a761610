import Mathlib.Data.List.Perm.Subperm
import Preproc.Proofs.Expansion.Painting

/-!
# No macro is live twice

A macro is live while its replacement is being rescanned: while a stream on the stack, other than
the input, is its replacement. A name is checked against the live macros when it is read, but its
replacement is put on the stack later, after the argument list has been read. In between streams may
have been dropped, because the parentheses stood further down. That only takes live macros away, so
no macro ever becomes live a second time, and there are never more streams than macros, with the
input.

This holds of every stack of a run: of the expansion itself, of the expansions of arguments, and of
those that wait. It also holds between two tokens that are read, which is what `Stack.Advances`
says.

## Key results

- `Stack.Advances.owners_suffix`: reading only drops live macros
- `Step.liveOnce`: a step makes no macro live that is live already
- `reaches_of_expandFrom`: an expansion ends, or fails, on a stack that its run has come to
- `live_macros_distinct`: the live macros are different ones, and no more than there are
-/

namespace Preproc

namespace Stack

/-! ## Live macros -/

/-- The macros whose replacements the streams above the last are. -/
def owners (s : Stack) : List (Option String) :=
  s.dropLast.map Frame.owner

/-- A replacement on top of a stack makes its macro live. -/
theorem owners_cons {s : Stack} (hs : s ≠ []) (f : Frame) :
    owners (f :: s) = f.owner :: owners s := by
  rw [owners, List.dropLast_cons_of_ne_nil hs, List.map_cons, owners]

/-- There is one stream for each live macro, and the input. -/
private theorem length_eq_owners {s : Stack} (hs : s ≠ []) : s.length = 1 + s.owners.length := by
  have hpos := List.length_pos_iff.2 hs
  rw [owners, List.length_map, List.length_dropLast]
  omega

/-- The painted names are those of the live macros. -/
theorem mem_painted_iff {s : Stack} {name : String} : name ∈ s.painted ↔ some name ∈ s.owners := by
  fun_induction painted s with
  | case1 => simp [owners]
  | case2 => simp [owners]
  | case3 f g fs ih =>
    rw [owners_cons (List.cons_ne_nil g fs), List.mem_append, List.mem_cons, ih, Option.mem_toList,
      eq_comm]

/-- Reading drops live macros, newest first, and adds none. -/
theorem Advances.owners_suffix {s s' : Stack} (h : Advances s s') : s'.owners <:+ s.owners := by
  induction h with
  | refl => exact List.suffix_rfl
  | @drop f fs s' used more rest ih =>
    rw [owners_cons more]
    exact ih.trans (List.suffix_cons _ _)
  | @read f fs s' t ts next rest ih =>
    -- Reading a token leaves the owner of the stream.
    have hsame : owners ({ f with consumed := f.consumed + 1, rest := ts } :: fs) =
        owners (f :: fs) := by
      cases fs with
      | nil => rfl
      | cons g gs => rfl
    rwa [hsame] at ih

/-- Each stream above the last is the replacement of a macro of the table, and no two are of the
same macro. -/
structure LiveOnce (table : MacroTable) (s : Stack) : Prop where
  base : s ≠ []
  nodup : s.owners.Nodup
  named : ∀ o ∈ s.owners, ∃ m ∈ table.macros, o = some m.name

namespace LiveOnce

variable {table : MacroTable} {s s' : Stack}

private theorem of_input (f : Frame) : LiveOnce table [f] :=
  ⟨List.cons_ne_nil _ _, List.nodup_nil, by simp [owners]⟩

/-- Reading makes no macro live. -/
theorem of_advances (h : s.LiveOnce table) (hadv : Advances s s') : s'.LiveOnce table := by
  have hsuffix := hadv.owners_suffix
  exact ⟨hadv.ne_nil h.base, h.nodup.sublist hsuffix.sublist,
    fun o ho => h.named o (hsuffix.subset ho)⟩

/-- The replacement of a macro that is not live may be put on top. -/
theorem push (h : s.LiveOnce table) {m : Macro} (hm : m ∈ table.macros)
    (hnew : m.name ∉ s.painted) (consumed : Nat) (ts : List Token) :
    LiveOnce table (⟨some m.name, consumed, ts⟩ :: s) := by
  refine ⟨List.cons_ne_nil _ _, ?_, ?_⟩
  · -- A live macro is painted, so the new one is not among them.
    rw [owners_cons h.base, List.nodup_cons]
    exact ⟨fun hmem => hnew (mem_painted_iff.2 hmem), h.nodup⟩
  · intro o ho
    rw [owners_cons h.base, List.mem_cons] at ho
    cases ho with
    | inl heq => exact ⟨m, hm, heq⟩
    | inr htail => exact h.named o htail

/-- There is at most one stream for each macro, and the input. -/
theorem length_le (h : s.LiveOnce table) : s.length ≤ 1 + table.macros.length := by
  have hsubset : s.owners ⊆ table.macros.map fun m => some m.name := by
    intro o ho
    obtain ⟨m, hm, rfl⟩ := h.named o ho
    exact List.mem_map_of_mem hm
  -- Different names that are all among those of the macros are no more than these.
  have hle := (List.subperm_of_subset h.nodup hsubset).length_le
  rw [List.length_map] at hle
  rw [length_eq_owners h.base]
  omega

end LiveOnce

end Stack

/-! ## Where an expansion ends -/

/-- The state in which an expansion ended. -/
def Expanded.state {α : Type} : Expanded α → Expander
  | ok _ x => x
  | error _ x => x

namespace Expander

/-- An expansion is finished when only the input is left, and nothing in it. -/
private theorem of_move_finish {x y : Expander} {env : Expansion} (h : x.move env = .finish y) :
    y = { x with stack := x.stack.settle } := by
  cases hnext : x.stack.next? with
  | none =>
    simp only [move, hnext, Move.finish.injEq] at h
    exact h.symm
  | some first =>
    simp only [move, hnext] at h
    split at h
    · cases h
    · split at h
      · cases h
      · split at h
        · cases h
        · split at h
          · -- Whatever a token asks for, it is not the end.
            exact absurd h (call_ne_finish _ _ _ _)
          · cases h

/-- If a replacement exceeds a limit, it is not put on the stack. -/
private theorem stack_of_push_error {y z : Expander} {env : Expansion} {ts : List Token}
    {name : String} {e : ExpansionError} (h : y.push env ts name = .error e z) :
    z.stack = y.stack := by
  unfold push at h
  -- Both limits are tested before anything is put on the stack.
  split at h
  · cases h
    rfl
  · simp only at h
    split at h
    · cases h
      rfl
    · cases h

/-- An invocation that cannot be replaced leaves the stack as it was when it had been read. -/
private theorem stack_of_replace_error {y z : Expander} {env : Expansion} {m : Macro} {site : Token}
    {args : List (List Token)} {e : ExpansionError} (h : y.replace env m site args = .error e z) :
    z.stack = y.stack := by
  unfold replace at h
  split at h
  · rename_i hargs
    cases h
    exact (preExpand_of_expandArguments_error hargs).2
  · -- The arguments are expanded on stacks of their own, so only the last step could change this
    -- one.
    rename_i given y₁ hargs
    obtain ⟨hstack, -, -⟩ := of_expandArguments hargs
    simp only at h
    split at h
    · cases h
      exact hstack
    · exact (stack_of_push_error h).trans hstack

end Expander

namespace Expansion

/-- An expansion ends on a stack that is left of the stack at one of its points. -/
theorem reaches_of_expandFrom (p : Point) (out : List Token) :
    ∃ q, Reaches p q ∧ q.waiting = p.waiting ∧
      q.state.stack.Advances (expandFrom p.env p.state out).state.stack := by
  induction p using run_induction generalizing out with
  | step p ih =>
    cases hmove : p.state.move p.env with
    | finish y =>
      rw [expandFrom_of_move_finish hmove, Expander.of_move_finish hmove]
      exact ⟨p, .refl, rfl, Stack.advances_settle _⟩
    | emit t y =>
      have hstep : Step p { p with state := y } := .emit hmove
      rw [expandFrom_of_move_emit hmove]
      obtain ⟨q, hq, hrest⟩ := ih _ hstep (t :: out)
      exact ⟨q, .head hstep hq, hrest⟩
    | invoke m site args y =>
      rw [expandFrom_of_move_invoke hmove]
      cases hreplace : y.replace p.env m site args with
      | error e z =>
        -- The invocation has been read, and nothing was put in its place.
        have hstack : z.stack = y.stack := Expander.stack_of_replace_error hreplace
        refine ⟨p, .refl, rfl, ?_⟩
        simp only [Expanded.state, hstack]
        exact (Expander.invokes_of_move hmove).advances
      | ok u z =>
        have hstep : Step p { p with state := z } := .replace hmove hreplace
        obtain ⟨q, hq, hrest⟩ := ih _ hstep out
        exact ⟨q, .head hstep hq, hrest⟩

/-! ## What a step keeps -/

/-- On every stack of the point, also on those that wait, no macro is live twice. -/
structure Point.LiveOnce (table : MacroTable) (p : Point) : Prop where
  macros : p.env.macros = table
  live : ∀ s ∈ p.state.stack :: p.waiting, s.LiveOnce table

/-- A step makes no macro live that is live already, on any stack. -/
theorem Step.liveOnce {table : MacroTable} {p q : Point} (h : Step p q) (hp : p.LiveOnce table) :
    q.LiveOnce table := by
  obtain ⟨hmacros, hstacks⟩ := hp
  obtain ⟨hown, hwaiting⟩ := List.forall_mem_cons.1 hstacks
  cases h with
  | emit hmove =>
    have hadv := Expander.advances_of_move_emit hmove
    exact ⟨hmacros, List.forall_mem_cons.2 ⟨hown.of_advances hadv, hwaiting⟩⟩
  | @replace m site args y z hmove hreplace =>
    have hinv := Expander.invokes_of_move hmove
    obtain ⟨given, y₁, ts, hr⟩ := Expander.replaced_of_replace hreplace
    have hname := MacroTable.name_of_find? hinv.found
    have hmem : m ∈ table.macros := hmacros ▸ List.mem_of_find?_eq_some hinv.found
    -- The name was not painted where it was read, and reading its arguments added no paint.
    have hpush := (hown.of_advances hinv.advances).push hmem (hname ▸ hinv.unpainted) 0
      (Expander.relocated m site ts)
    refine ⟨hmacros, List.forall_mem_cons.2 ⟨?_, hwaiting⟩⟩
    show z.stack.LiveOnce table
    rw [hr.stack]
    exact hpush
  | enter henter =>
    -- The expansion of an argument starts with one stream, and the stack it was read from waits.
    obtain ⟨hmove, hopens⟩ := henter
    obtain ⟨⟨a, -, ha⟩, -, hinner⟩ := hopens.argument
    have hadv := (Expander.invokes_of_move hmove).advances
    refine ⟨hinner.trans hmacros, List.forall_mem_cons.2 ⟨?_,
      List.forall_mem_cons.2 ⟨hown.of_advances hadv, hwaiting⟩⟩⟩
    simp only [ha]
    exact .of_input _

/-- No macro is ever live twice, on any stack of a run. -/
theorem Reaches.liveOnce {table : MacroTable} {p q : Point} (h : Reaches p q)
    (hp : p.LiveOnce table) : q.LiveOnce table := by
  induction h with
  | refl => exact hp
  | tail _ hstep ih => exact hstep.liveOnce ih

/-- While tokens are expanded, on every stack, also of an argument's expansion or one that waits,
and whenever a token has been read from it or a stream dropped, the streams above the input are the
replacements of different macros. So there are at most as many streams as macros, and the input.
This also holds when the expansion has ended, or failed. -/
theorem live_macros_distinct (env : Expansion) (x : Expander) (ts : List Token) :
    (∀ p, Reaches (Point.start env x ts) p → ∀ s ∈ p.state.stack :: p.waiting,
      ∀ s', s.Advances s' →
        s'.LiveOnce env.macros ∧ s'.length ≤ 1 + env.macros.macros.length) ∧
    (x.expand env ts).state.stack.LiveOnce env.macros ∧
      (x.expand env ts).state.stack.length ≤ 1 + env.macros.macros.length := by
  -- At the start there is the input only.
  have hstart : (Point.start env x ts).LiveOnce env.macros :=
    ⟨rfl, List.forall_mem_cons.2 ⟨.of_input _, by simp [Point.start]⟩⟩
  have hpoint : ∀ p, Reaches (Point.start env x ts) p → ∀ s ∈ p.state.stack :: p.waiting,
      ∀ s', s.Advances s' → s'.LiveOnce env.macros := by
    intro p hp s hs s' hadv
    exact ((hp.liveOnce hstart).live s hs).of_advances hadv
  -- The stack at the end is what reading has left of the stack at some point.
  obtain ⟨q, hq, -, hend⟩ := reaches_of_expandFrom (Point.start env x ts) []
  have hlast := hpoint q hq q.state.stack List.mem_cons_self _ hend
  refine ⟨fun p hp s hs s' hadv => ?_, hlast, hlast.length_le⟩
  have hlive := hpoint p hp s hs s' hadv
  exact ⟨hlive, hlive.length_le⟩

/-! ## Parentheses from further down -/

/-- The state after the next token has been emitted or replaced. -/
def advanced? (env : Expansion) (x : Expander) : Option Expander :=
  match x.move env with
  | .finish _ => none
  | .emit _ y => some y
  | .invoke m site args y =>
    match y.replace env m site args with
    | .ok () z => some z
    | .error _ _ => none

/-- The state after `n` tokens have been emitted or replaced. -/
def advancedBy? (env : Expansion) : Nat → Expander → Option Expander
  | 0, x => some x
  | n + 1, x => (advanced? env x).bind (advancedBy? env n)

/-- Emitting or replacing a token is a step. -/
private theorem step_of_advanced? {p : Point} {y : Expander}
    (h : advanced? p.env p.state = some y) : Step p { p with state := y } := by
  unfold advanced? at h
  split at h
  · cases h
  · rename_i hmove
    cases h
    exact .emit hmove
  · rename_i hmove
    split at h
    · rename_i hreplace
      cases h
      exact .replace hmove hreplace
    · cases h

/-- A state that some steps lead to is reached. -/
private theorem reaches_of_advancedBy? {n : Nat} {p : Point} {y : Expander}
    (h : advancedBy? p.env n p.state = some y) : Reaches p { p with state := y } := by
  induction n generalizing p with
  | zero =>
    cases h
    exact .refl
  | succ n ih =>
    obtain ⟨z, hz, hy⟩ := Option.bind_eq_some_iff.1 h
    exact .head (step_of_advanced? hz) (ih (p := { p with state := z }) hy)

namespace Borrowed

/-- The macro `f()` stands for `g`. -/
def f : Macro :=
  .function "f" ⟨[], false⟩ [] [.word "g"]

/-- The macro `g()` stands for `f()`. -/
def g : Macro :=
  .function "g" ⟨[], false⟩ [] [.word "f", .sign "(", .sign ")"]

/-- An expansion with these macros. -/
def env : Expansion :=
  { macros := { macros := [f, g] } }

/-- The text `f()()`. -/
def tokens : List Token :=
  [.word "f", .sign "(", .sign ")", .sign "(", .sign ")"]

/-- The live macros after `n` steps of its expansion. -/
def liveAfter (n : Nat) : Option (List (Option String)) :=
  (advancedBy? env n (Point.start env {} tokens).state).map (·.stack.owners)

end Borrowed

open Borrowed in
/-- The parentheses of `g` are those of the input, so `f` is no longer live when `g` is replaced,
and is replaced once more. Then the stack is as high as it can be. -/
theorem live_macros_distinct_borrowed :
    liveAfter 1 = some [some "f"] ∧ liveAfter 2 = some [some "g"] ∧
    ∃ p, Reaches (Point.start env {} tokens) p ∧
      p.state.stack.owners = [some "f", some "g"] ∧
      p.state.stack.LiveOnce env.macros ∧
      p.state.stack.length ≤ 1 + env.macros.macros.length ∧ p.state.stack.length = 3 := by
  -- The parentheses of `g` are read from below the replacement of `f`, which ends there.
  have hlive : liveAfter 1 = some [some "f"] ∧ liveAfter 2 = some [some "g"] ∧
      liveAfter 3 = some [some "f", some "g"] := by
    decide +kernel
  obtain ⟨hone, htwo, hthree⟩ := hlive
  obtain ⟨z, hz, howners⟩ := Option.map_eq_some_iff.1 hthree
  have hreaches := reaches_of_advancedBy? (p := Point.start env {} tokens) hz
  obtain ⟨hlive, hlength⟩ := (live_macros_distinct env {} tokens).1 _ hreaches z.stack
    List.mem_cons_self z.stack (.refl _)
  refine ⟨hone, htwo, _, hreaches, howners, hlive, hlength, ?_⟩
  rw [Stack.length_eq_owners hlive.base, howners]
  rfl

end Expansion

end Preproc
