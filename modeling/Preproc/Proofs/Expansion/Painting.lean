import Preproc.Proofs.Expansion.Room
import Preproc.Proofs.Samples

/-!
# How far paint reaches

A name is not replaced while it is painted on the stack from which it is read. The arguments of an
invocation are expanded on stacks of their own, which start without paint. So a name that is painted
where the invocation stands is marked in the tokens of the arguments, but not in what they expand
to: an argument is replaced exactly as it would be on its own.

`PaintReaches` says of an expansion that paint reaches the arguments all the same. It does not
always hold: `not_paintReaches_indirect` is an expansion in which the macro being rescanned comes up
again inside an argument, and is replaced. It holds exactly if no argument, expanded on its own,
replaces a name painted at its invocation (`paintReaches_iff`).

## Key results

- `laterReplaces_alone_iff`: an argument is expanded as it would be on its own
- `paintReaches_iff`: when paint reaches the arguments, and what follows from it
-/

namespace Preproc

namespace Stack

/-- A replacement on top of a stack paints its name. -/
theorem painted_push {s : Stack} (hs : s ≠ []) (name : String) (consumed : Nat)
    (ts : List Token) : painted (⟨some name, consumed, ts⟩ :: s) = name :: painted s := by
  cases s with
  | nil => exact absurd rfl hs
  | cons f fs => rfl

end Stack

/-- A macro is found under its own name. -/
theorem MacroTable.name_of_find? {table : MacroTable} {name : String} {m : Macro}
    (h : table.find? name = some m) : m.name = name := by
  simpa using List.find?_some h

/-- A name under which a macro is found is defined. -/
theorem MacroTable.isDefined_of_find? {table : MacroTable} {name : String} {m : Macro}
    (h : table.find? name = some m) : table.isDefined name = true := by
  unfold isDefined
  rw [List.any_eq_true]
  exact ⟨m, List.mem_of_find?_eq_some h, by simpa using name_of_find? h⟩

namespace Expansion

/-! ## Arguments on their own -/

/-- The name `name` is replaced at some point from `p` on. -/
def Point.LaterReplaces (p : Point) (name : String) : Prop :=
  ∃ r, Reaches p r ∧ r.Replaces name

/-- The point as one of an expansion on its own, for which nothing waits. -/
def Point.alone (p : Point) : Point :=
  { env := { p.env with maxDepth := p.env.maxDepth - p.env.waiting, waiting := 0 }
    state := p.state }

/-- An expansion on its own has the same room, so it goes the same way. -/
theorem laterReplaces_alone_iff (p : Point) (name : String) :
    p.alone.LaterReplaces name ↔ p.LaterReplaces name := by
  have htransfer : ∀ {q q' : Point}, q.Roomier q' → q.LaterReplaces name →
      q'.LaterReplaces name := by
    rintro q q' hroomier ⟨r, hreach, hreplaces⟩
    obtain ⟨r', hreach', hroomier'⟩ := reaches_of_roomier hroomier hreach
    exact ⟨r', hreach', replaces_of_roomier hroomier' hreplaces⟩
  -- Both have as much room as the other.
  have hto : p.Roomier p.alone := ⟨rfl, rfl, rfl, rfl, Int.le_refl _, by simp [Point.alone]⟩
  have hfrom : p.alone.Roomier p := ⟨rfl, rfl, rfl, rfl, Int.le_refl _, by simp [Point.alone]⟩
  exact ⟨htransfer hfrom, htransfer hto⟩

/-! ## Paint on several stacks -/

/-- The names painted on any of the stacks. -/
def paintedOn (live : List Stack) : List String :=
  live.flatMap Stack.painted

/-- While the arguments of an invocation are expanded, no name is replaced that is painted where the
invocation stands: on the stack of its expansion, or on one that waits for that. -/
def PaintReaches (env : Expansion) (x : Expander) (ts : List Token) : Prop :=
  ∀ p q, Reaches (Point.start env x ts) p → Enters p q →
    ∀ r, Reaches q r → ∀ name, r.Replaces name → name ∉ paintedOn q.waiting

/-- A point of an argument's expansion comes after the start of that expansion, for which the same
stacks wait. -/
theorem Reaches.entered {p r : Point} (h : Reaches p r) :
    r.waiting = p.waiting ∨
      ∃ p' q, Reaches p p' ∧ Enters p' q ∧ Reaches q r ∧ q.waiting = r.waiting := by
  induction h with
  | refl => exact .inl rfl
  | @tail r s hreach hstep ih =>
    -- A step that is not into an argument keeps what waits.
    have hkeep : s.waiting = r.waiting → s.waiting = p.waiting ∨
        ∃ p' q, Reaches p p' ∧ Enters p' q ∧ Reaches q s ∧ q.waiting = s.waiting := by
      intro hsame
      cases ih with
      | inl htop => exact .inl (hsame.trans htop)
      | inr hnested =>
        obtain ⟨p', q, hp', henter, hq, hwaiting⟩ := hnested
        exact .inr ⟨p', q, hp', henter, hq.tail hstep, hwaiting.trans hsame.symm⟩
    cases hstep with
    | emit hmove => exact hkeep rfl
    | replace hmove hreplace => exact hkeep rfl
    | enter henter => exact .inr ⟨r, s, hreach, henter, .refl, rfl⟩

/-- The names painted on all stacks of a point are those of different macros. -/
structure Point.Distinct (p : Point) : Prop where
  nodup : (paintedOn (p.state.stack :: p.waiting)).Nodup
  defined : ∀ name ∈ paintedOn (p.state.stack :: p.waiting),
    p.env.macros.isDefined name = true

/-- Where no name is painted that was not before, names stay distinct. -/
private theorem Point.Distinct.of_sublist {p q : Point} (h : p.Distinct)
    (hsub : (paintedOn (q.state.stack :: q.waiting)).Sublist
      (paintedOn (p.state.stack :: p.waiting)))
    (hmacros : q.env.macros = p.env.macros) : q.Distinct := by
  refine ⟨h.nodup.sublist hsub, ?_⟩
  intro name hname
  rw [hmacros]
  exact h.defined name (hsub.subset hname)

/-- A step keeps the painted names distinct, if what it replaces is not painted on a stack that
waits. -/
theorem Step.distinct {p q : Point} (h : Step p q) (hp : p.Distinct) (hstack : p.state.stack ≠ [])
    (hfree : ∀ name, p.Replaces name → name ∉ paintedOn p.waiting) : q.Distinct := by
  cases h with
  | emit hmove =>
    have hsuffix := (Expander.advances_of_move_emit hmove).painted_suffix
    exact hp.of_sublist (hsuffix.sublist.append (.refl _)) rfl
  | @replace m site args y z hmove hreplace =>
    have hinv := Expander.invokes_of_move hmove
    obtain ⟨given, y₁, ts, hr⟩ := Expander.replaced_of_replace hreplace
    have hname := MacroTable.name_of_find? hinv.found
    have hnotWaiting := hfree site.value ⟨m, site, args, y, z, hmove, hreplace, rfl⟩
    have hrest : Point.Distinct { p with state := y } :=
      hp.of_sublist (hinv.advances.painted_suffix.sublist.append (.refl _)) rfl
    have hpainted : paintedOn (z.stack :: p.waiting) =
        site.value :: paintedOn (y.stack :: p.waiting) := by
      simp only [paintedOn, List.flatMap_cons, hr.stack, hname,
        Stack.painted_push (hinv.advances.ne_nil hstack), List.cons_append]
    constructor
    · -- The new name is not painted on its own stack because it was read from there.
      show (paintedOn (z.stack :: p.waiting)).Nodup
      rw [hpainted, List.nodup_cons]
      refine ⟨?_, hrest.nodup⟩
      intro hmem
      cases List.mem_append.1 hmem with
      | inl hown => exact hinv.unpainted hown
      | inr hwaiting => exact hnotWaiting hwaiting
    · intro name hmem
      have hmem' : name ∈ paintedOn (z.stack :: p.waiting) := hmem
      rw [hpainted, List.mem_cons] at hmem'
      cases hmem' with
      | inl heq => exact heq ▸ MacroTable.isDefined_of_find? hinv.found
      | inr htail => exact hrest.defined name htail
  | enter henter =>
    -- The argument starts on a stack without paint, and the stack it was read from waits.
    obtain ⟨hmove, hopens⟩ := henter
    obtain ⟨⟨a, -, ha⟩, -, hmacros⟩ := hopens.argument
    have hsuffix := (Expander.invokes_of_move hmove).advances.painted_suffix
    refine hp.of_sublist ?_ hmacros
    simp only [paintedOn, List.flatMap_cons, ha, Stack.painted, List.nil_append]
    exact hsuffix.sublist.append (.refl _)

/-- If paint reaches the arguments, all names that are painted at a point are distinct. -/
theorem PaintReaches.distinct {env : Expansion} {x : Expander} {ts : List Token}
    (h : PaintReaches env x ts) {r : Point} (hreach : Reaches (Point.start env x ts) r) :
    r.Distinct := by
  induction hreach with
  | refl => exact ⟨List.nodup_nil, by simp [Point.start, paintedOn, Stack.painted]⟩
  | @tail q r hreach hstep ih =>
    have hstack := Reaches.stack_ne_nil hreach (List.cons_ne_nil _ _)
    refine hstep.distinct ih hstack ?_
    intro name hreplaces
    cases Reaches.entered hreach with
    -- For the expansion itself nothing waits, so nothing is painted elsewhere.
    | inl htop => simp [htop, Point.start, paintedOn]
    | inr hnested =>
      obtain ⟨p', q', hp', henter, hq', hwaiting⟩ := hnested
      rw [← hwaiting]
      exact h p' q' hp' henter q hq' name hreplaces

/-- Paint reaches the arguments of an expansion exactly if no argument, expanded on its own,
replaces a name that is painted where its invocation stands. In any case the names painted on the
invoking stack are marked in the arguments themselves. If paint reaches them, the names painted on
all stacks at any time are those of different macros, so macros do not come up again inside their
own arguments. -/
theorem paintReaches_iff (env : Expansion) (x : Expander) (ts : List Token) :
    (PaintReaches env x ts ↔
      ∀ p q, Reaches (Point.start env x ts) p → Enters p q →
        ∀ name ∈ paintedOn q.waiting, ¬q.alone.LaterReplaces name) ∧
    (∀ p q, Reaches (Point.start env x ts) p → Enters p q →
      ∃ s a, q.waiting = s :: p.waiting ∧ q.state.stack = [⟨none, 0, a⟩] ∧ s.Marks a) ∧
    (PaintReaches env x ts → ∀ r, Reaches (Point.start env x ts) r → r.Distinct) := by
  refine ⟨⟨?_, ?_⟩, ?_, ?_⟩
  · -- On its own an argument replaces what it replaces here.
    intro h p q hp henter name hname halone
    obtain ⟨r, hr, hreplaces⟩ := (laterReplaces_alone_iff q name).1 halone
    exact h p q hp henter r hr name hreplaces hname
  · intro h p q hp henter r hr name hreplaces hname
    exact h p q hp henter name hname ((laterReplaces_alone_iff q name).2 ⟨r, hr, hreplaces⟩)
  · intro p q hp henter
    obtain ⟨hmove, hopens⟩ := henter
    obtain ⟨⟨a, ha, hstack⟩, -⟩ := hopens.argument
    exact ⟨_, a, rfl, hstack, (Expander.invokes_of_move hmove).marks a ha⟩
  · intro h r hr
    exact h.distinct hr

/-! ## A name that comes up again inside an argument -/

namespace Indirect

/-- The macro `A` stands for `f(B)`. -/
def A : Macro :=
  .object "A" [.word "f", .sign "(", .word "B", .sign ")"]

/-- The macro `B` stands for `A`. -/
def B : Macro :=
  .object "B" [.word "A"]

/-- An expansion with these macros, beside `f(x)` that stands for `x`. -/
def env : Expansion :=
  { macros := { macros := [.echo, A, B] } }

/-- The name `value`, as it comes out of an expansion of `A`. -/
def derived (value : String) : Token :=
  { Token.word value with expandedFrom := some "A" }

/-- The streams when the argument of `f` has been read: all of `A` has, too. -/
def outer : Stack :=
  [⟨some "A", 4, []⟩, ⟨none, 1, []⟩]

/-- The replacement of `A` is about to be read. -/
def rescan : Point :=
  { env := env
    state :=
      { stack := [⟨some "A", 0, Expander.relocated A (.word "A") A.body⟩, ⟨none, 1, []⟩]
        produced := 4 } }

/-- The argument `B` of `f` is about to be expanded. -/
def argument : Point :=
  { env := env.forArgument 2 4
    state := .ofArgument [derived "B"] 0 #[]
    waiting := [outer] }

/-- In the argument, the replacement of `B` is about to be read. -/
def nested : Point :=
  { argument with
    state := { stack := [⟨some "B", 0, [derived "A"]⟩, ⟨none, 1, []⟩], produced := 1 } }

end Indirect

open Indirect in
/-- The argument `B` is expanded while `A` is painted, and stands for `A`, which is replaced. -/
theorem not_paintReaches_indirect : ¬PaintReaches env {} [.word "A"] := by
  intro h
  -- `A` is replaced, and its text calls `f`.
  have hrescan : Step (Point.start env {} [.word "A"]) rescan :=
    @Step.replace _ A (.word "A") [] { stack := [⟨none, 1, []⟩] } _ (by cbv)
      (Expander.replace_object _ _ _ _ _)
  -- The argument is expanded on its own, where `A` is not painted.
  have henter : Enters rescan argument :=
    @Enters.mk rescan .echo (derived "f") [[derived "B"]] { stack := outer, produced := 4 } _ _
      (by cbv) (.here rfl (by decide) rfl rfl)
  have hnested : Step argument nested :=
    @Step.replace _ B (derived "B") [] { stack := [⟨none, 1, []⟩] } _ (by cbv)
      (Expander.replace_object _ _ _ _ _)
  -- In the text of `B` it is replaced once more.
  have hreplaces : nested.Replaces "A" :=
    ⟨A, derived "A", [], { stack := [⟨some "B", 1, []⟩, ⟨none, 1, []⟩], produced := 1 }, _,
      by cbv, Expander.replace_object _ _ _ _ _, rfl⟩
  exact h rescan argument (.single hrescan) henter nested (.single hnested) "A" hreplaces
    (by decide)

end Expansion

end Preproc
