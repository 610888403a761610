import Preproc.Proofs.Preprocessor.Effects

/-!
# The lives of groups

Conditional directives come in any order: branches after the last branch, branches and ends without
a group, groups that are cut off. Whatever happens, the open groups stay in order. Whether code is
emitted is read off the innermost group alone, which remembers from the moment it was opened whether
the code around it is emitted; that stays right, because a group changes only while it is the
innermost.

A group lives from the step that opens it to the one that closes it, at a fixed height. On the way
it only goes forward: it waits for a branch to be taken, takes one, and is done. So two moments at
which code is emitted inside of it lie in the same branch.

## Key results

- `shift_after`: all that a step can do to the open groups
- `Sane.shift`: what a step keeps
- `Lasts.group`: what a group has come to while it was open
- `groups_of_history`: the two for every sequence of steps, and when a condition is asked for
-/

namespace Preproc

/-- How far a group has come, as a number. -/
def Branch.rank : Branch → Nat
  | awaiting => 0
  | active => 1
  | done => 2

private theorem Branch.rank_le_done (b : Branch) : b.rank ≤ Branch.done.rank := by
  cases b <;> decide

/-- What can happen to the open groups. A condition is given by its answer. -/
inductive GroupStep where
  | opens (test : Bool)
  | elif (test : Bool)
  | otherwise
  | endif
  /-- Groups are closed until at most `depth` are open, as at the end of a file. -/
  | truncate (depth : Nat)
deriving DecidableEq, Repr

/-- Whether the step starts a further branch of the innermost group. -/
def GroupStep.startsBranch : GroupStep → Bool
  | elif _ | otherwise => true
  | _ => false

namespace Conditionals

/-- The open groups after a step. What needs an open group does nothing without one. -/
def after (c : Conditionals) : GroupStep → Conditionals
  | .opens test => c.openGroup test
  | .elif test => (c.elif? test).elim c (·.value)
  | .otherwise => c.otherwise?.elim c (·.value)
  | .endif => c.endif?.getD c
  | .truncate depth => (c.truncate depth).2

/-- The open groups after some steps, where none was open at first. -/
def history (steps : List GroupStep) : Conditionals :=
  steps.foldl after {}

/-- The group at a height; the outermost is at height zero. -/
def group? (c : Conditionals) (height : Nat) : Option Group :=
  c.groups.reverse[height]?

/-- The open groups are in order. -/
structure Coherent (c : Conditionals) : Prop where
  outermost : ∀ g, c.group? 0 = some g → g.parentActive = true
  nested : ∀ h parent g, c.group? h = some parent → c.group? (h + 1) = some g →
    g.parentActive = parent.inActiveBranch
  active_iff : c.active = true ↔ ∀ g ∈ c.groups, g.state = .active
  seenElse : ∀ g ∈ c.groups, g.seenElse = true → g.state ≠ .awaiting

/-- From `c` to `d` the group at `height` stays open, and `n` further branches of it are started. -/
inductive Lasts (height : Nat) (c : Conditionals) : Nat → Conditionals → Prop
  | here (hopen : height < c.depth) : Lasts height c 0 c
  | step {n : Nat} {d : Conditionals} (before : Lasts height c n d) (s : GroupStep)
      (hopen : height < (d.after s).depth) :
      Lasts height c (if s.startsBranch && d.depth = height + 1 then n + 1 else n) (d.after s)

/-! ## What a step does -/

end Conditionals

/-- What becomes of a group when a further branch of it is started. -/
structure Group.Turns (g g' : Group) : Prop where
  parentActive : g'.parentActive = g.parentActive
  rank : g.state.rank ≤ g'.state.rank
  taken : g.state ≠ .awaiting → g'.state = .done
  seenElse : g'.seenElse = true → g'.state ≠ .awaiting

namespace Conditionals

/-- A further branch with a condition turns the group, whatever the condition's answer is. -/
private theorem turns_elifGroup (g : Group) (test : Bool) : g.Turns (elifGroup g test).value := by
  unfold elifGroup
  split
  · -- The last branch has been seen, so nothing more is taken.
    exact ⟨rfl, g.state.rank_le_done, fun _ => rfl, fun _ => by simp⟩
  · rename_i hnot
    split
    · rename_i hstate
      exact ⟨rfl, by simp [hstate, Branch.rank], fun _ => rfl, fun h => absurd h hnot⟩
    · rename_i hstate
      -- The branch is taken if its condition holds; if not, the group waits for another.
      simp only [Noted.value_pure]
      split
      · exact ⟨rfl, by simp [hstate, Branch.rank], fun h => absurd hstate h, fun _ => by simp⟩
      · exact ⟨rfl, Nat.le_refl _, fun h => absurd hstate h, fun h => absurd h hnot⟩
    · rename_i hstate
      exact ⟨rfl, Nat.le_refl _, fun _ => hstate, fun h => absurd h hnot⟩

/-- The last branch turns the group. -/
private theorem turns_otherwiseGroup (g : Group) : g.Turns (otherwiseGroup g).value := by
  unfold otherwiseGroup
  -- A second last branch is as good as none.
  split
  · exact ⟨rfl, g.state.rank_le_done, fun _ => rfl, fun _ => by simp⟩
  · split
    · rename_i hstate
      -- A branch was being taken, and it ends here.
      exact ⟨rfl, by simp [hstate, Branch.rank], fun _ => rfl, fun _ => by simp⟩
    · rename_i hstate
      -- None was taken before, so this one is.
      exact ⟨rfl, by simp [hstate, Branch.rank], fun h => absurd hstate h, fun _ => by simp⟩
    · rename_i hstate
      exact ⟨rfl, Nat.le_refl _, fun _ => hstate, fun _ => by simp [hstate]⟩

/-- All that a step can do: open a group, start a branch of the innermost one, or close some of
them. -/
inductive Shift (c : Conditionals) (s : GroupStep) : Conditionals → Prop
  | opens (test : Bool) (hstarts : s.startsBranch = false) : Shift c s (c.openGroup test)
  | turns {g g' : Group} {gs : List Group} (hstarts : s.startsBranch = true)
      (hgroups : c.groups = g :: gs) (hturns : g.Turns g') : Shift c s ⟨g' :: gs⟩
  | closes (n : Nat) (hstarts : s.startsBranch = true → c.groups = []) :
      Shift c s ⟨c.groups.drop n⟩

/-- Every step is one of these three. -/
theorem shift_after (c : Conditionals) (s : GroupStep) : Shift c s (c.after s) := by
  obtain ⟨groups⟩ := c
  cases s with
  | opens test => exact .opens test rfl
  | elif test =>
    cases groups with
    -- Without an open group a branch leaves everything as it is.
    | nil => exact .closes 0 fun _ => rfl
    | cons g gs => exact .turns rfl rfl (turns_elifGroup g test)
  | otherwise =>
    cases groups with
    | nil => exact .closes 0 fun _ => rfl
    | cons g gs => exact .turns rfl rfl (turns_otherwiseGroup g)
  | endif =>
    cases groups with
    | nil => exact .closes 0 nofun
    | cons g gs => exact .closes 1 nofun
  | truncate depth => exact .closes _ nofun

/-! ## Order among the groups -/

/-- Every group remembers whether it stands in code that is emitted. -/
def Linked : List Group → Prop
  | [] => True
  | g :: gs => g.parentActive = active ⟨gs⟩ ∧ Linked gs

/-- What is left when groups are closed still remembers its surroundings. -/
theorem Linked.drop {gs : List Group} (h : Linked gs) (n : Nat) : Linked (gs.drop n) := by
  induction n generalizing gs with
  | zero => exact h
  | succ n ih =>
    cases gs with
    | nil => trivial
    | cons g gs => exact ih h.2

/-- Code is emitted just if all open groups are in a branch that is taken. -/
theorem Linked.active_iff {gs : List Group} (h : Linked gs) :
    active ⟨gs⟩ = true ↔ ∀ g ∈ gs, g.state = .active := by
  induction gs with
  | nil => simp [active]
  | cons g gs ih =>
    have hactive : active ⟨g :: gs⟩ = (active ⟨gs⟩ && g.state = .active) := by
      rw [← h.1]
      rfl
    rw [hactive, Bool.and_eq_true, ih h.2, List.forall_mem_cons, decide_eq_true_eq, and_comm]

/-- A group on top does not change what is below it. -/
private theorem group?_cons_of_lt {g : Group} {gs : List Group} {h : Nat} (hlt : h < gs.length) :
    group? ⟨g :: gs⟩ h = group? ⟨gs⟩ h := by
  simp only [group?, List.reverse_cons]
  exact List.getElem?_append_left (by simpa using hlt)

private theorem group?_cons_length (g : Group) (gs : List Group) :
    group? ⟨g :: gs⟩ gs.length = some g := by
  simp [group?]

/-- A height at which there is a group is below the number of groups. -/
private theorem lt_depth_of_group? {c : Conditionals} {h : Nat} {g : Group}
    (hg : c.group? h = some g) : h < c.depth := by
  have hlt := (List.getElem?_eq_some_iff.1 hg).1
  simpa [depth] using hlt

private theorem mem_of_group? {c : Conditionals} {h : Nat} {g : Group} (hg : c.group? h = some g) :
    g ∈ c.groups :=
  List.mem_reverse.1 (List.mem_of_getElem? hg)

/-- Closing groups leaves those below them at their heights. -/
private theorem group?_drop {gs : List Group} {n h : Nat} (hlt : h < (gs.drop n).length) :
    group? ⟨gs.drop n⟩ h = group? ⟨gs⟩ h := by
  induction n generalizing gs with
  | zero => rfl
  | succ n ih =>
    cases gs with
    | nil => rfl
    | cons g gs =>
      -- Groups are counted from the outermost on, so dropping inner ones renumbers none.
      rw [List.drop_succ_cons] at hlt ⊢
      have hle : (gs.drop n).length ≤ gs.length := by simp
      rw [ih hlt, group?_cons_of_lt (by omega)]

/-- The outermost group stands in code that is emitted. -/
theorem Linked.outermost {gs : List Group} (h : Linked gs) {g : Group}
    (hg : group? ⟨gs⟩ 0 = some g) : g.parentActive = true := by
  induction gs with
  | nil => cases hg
  | cons inner gs ih =>
    -- The outermost group is at the end of the list, where nothing stands around it.
    cases gs with
    | nil =>
      cases hg
      exact h.1
    | cons next gs =>
      rw [group?_cons_of_lt (by simp)] at hg
      exact ih h.2 hg

/-- A group remembers whether the group just outside of it is in a branch that is taken. -/
theorem Linked.nested {gs : List Group} (h : Linked gs) {height : Nat} {parent g : Group}
    (hparent : group? ⟨gs⟩ height = some parent) (hg : group? ⟨gs⟩ (height + 1) = some g) :
    g.parentActive = parent.inActiveBranch := by
  induction gs with
  | nil => cases hg
  | cons inner gs ih =>
    have hlt : height + 1 < gs.length + 1 := lt_depth_of_group? hg
    rw [group?_cons_of_lt (by omega)] at hparent
    by_cases hinner : height + 1 = gs.length
    · -- The innermost group stands in the one before it.
      rw [hinner, group?_cons_length] at hg
      cases hg
      cases gs with
      | nil => cases hparent
      | cons outer gs =>
        have hheight : height = gs.length := by simpa using hinner
        rw [hheight, group?_cons_length] at hparent
        cases hparent
        exact h.1
    · -- Neither of the two is the innermost, so both are among the others.
      rw [group?_cons_of_lt (by omega)] at hg
      exact ih h.2 hparent hg

/-! ## What steps keep -/

/-- What every step keeps. -/
structure Sane (c : Conditionals) : Prop where
  linked : Linked c.groups
  seenElse : ∀ g ∈ c.groups, g.seenElse = true → g.state ≠ .awaiting

/-- One step keeps the groups in order. -/
theorem Sane.shift {c d : Conditionals} {s : GroupStep} (h : Sane c) (hshift : Shift c s d) :
    Sane d := by
  cases hshift with
  | opens test _ =>
    -- A new group notes whether code is emitted when it is opened, and waits for no last branch.
    refine ⟨⟨rfl, h.linked⟩, ?_⟩
    exact List.forall_mem_cons.2 ⟨nofun, h.seenElse⟩
  | turns _ hgroups hturns =>
    -- Only the innermost group changes, and not what it remembers of its surroundings.
    have hlinked := h.linked
    have hseen := h.seenElse
    rw [hgroups] at hlinked hseen
    refine ⟨⟨hturns.parentActive.trans hlinked.1, hlinked.2⟩, ?_⟩
    exact List.forall_mem_cons.2 ⟨hturns.seenElse, (List.forall_mem_cons.1 hseen).2⟩
  | closes n _ =>
    refine ⟨h.linked.drop n, fun g hg => h.seenElse g ?_⟩
    exact (List.drop_sublist n _).subset hg

/-- Any number of steps, from no group at all, leads to sane groups. -/
private theorem sane_history (steps : List GroupStep) : Sane (history steps) := by
  refine List.foldlRecOn steps after ⟨trivial, by simp⟩ ?_
  intro c hc s _
  exact hc.shift (shift_after c s)

/-- Groups that every step keeps in order are coherent. -/
theorem Sane.coherent {c : Conditionals} (h : Sane c) : c.Coherent where
  outermost _ hg := h.linked.outermost hg
  nested _ _ _ hparent hg := h.linked.nested hparent hg
  active_iff := h.linked.active_iff
  seenElse := h.seenElse

/-! ## The life of a group -/

/-- A step leaves a group that stays open as it is, unless it starts a branch of it. -/
private theorem Shift.group? {c d : Conditionals} {s : GroupStep} (hshift : Shift c s d) {h : Nat}
    {g : Group} (hg : c.group? h = some g) (hopen : h < d.depth) :
    ∃ g', d.group? h = some g' ∧
      if s.startsBranch && c.depth = h + 1 then g.Turns g' else g' = g := by
  have hlt := lt_depth_of_group? hg
  cases hshift with
  | opens test hstarts =>
    refine ⟨g, (group?_cons_of_lt hlt).trans hg, ?_⟩
    simp [hstarts]
  | @turns top top' gs hstarts hgroups hturns =>
    obtain ⟨groups⟩ := c
    obtain rfl : groups = top :: gs := hgroups
    by_cases htop : h = gs.length
    · -- The step starts a branch of the group itself.
      subst htop
      rw [group?_cons_length] at hg
      cases hg
      refine ⟨top', group?_cons_length top' gs, ?_⟩
      simpa [hstarts, depth] using hturns
    · -- The branch is one of another group, further inside.
      have hlower : h < gs.length := by
        have hle : h < gs.length + 1 := hlt
        omega
      rw [group?_cons_of_lt hlower] at hg
      refine ⟨g, (group?_cons_of_lt hlower).trans hg, ?_⟩
      rw [if_neg]
      intro hcounts
      have hdepth : gs.length + 1 = h + 1 :=
        of_decide_eq_true (Bool.and_eq_true_iff.1 hcounts).2
      omega
  | closes n hstarts =>
    refine ⟨g, (group?_drop hopen).trans hg, ?_⟩
    rw [if_neg]
    intro hcounts
    -- A branch is started only in an open group, and then nothing is closed.
    have hnone := hstarts (Bool.and_eq_true_iff.1 hcounts).1
    simp [depth, hnone] at hlt

/-- While it is open, a group goes forward; it is unchanged until a further branch is started, and
then done if a branch had been taken before. -/
theorem Lasts.group {h n : Nat} {c d : Conditionals} (hlasts : Lasts h c n d) :
    ∃ g g', c.group? h = some g ∧ d.group? h = some g' ∧ g.state.rank ≤ g'.state.rank ∧
      (0 < n → g.state ≠ .awaiting → g'.state = .done) := by
  induction hlasts with
  | here hopen =>
    -- The group is open, so there is one at its height.
    obtain ⟨g, hg⟩ : ∃ g, c.group? h = some g := by
      refine ⟨_, List.getElem?_eq_getElem ?_⟩
      simpa [depth] using hopen
    exact ⟨g, g, hg, hg, Nat.le_refl _, nofun⟩
  | @step n d before s hopen ih =>
    obtain ⟨g, g₁, hg, hg₁, hrank, hdone⟩ := ih
    obtain ⟨g₂, hg₂, hnext⟩ := (shift_after d s).group? hg₁ hopen
    refine ⟨g, g₂, hg, hg₂, ?_⟩
    split at hnext
    · rename_i hcounts
      refine ⟨Nat.le_trans hrank hnext.rank, fun _ htaken => hnext.taken ?_⟩
      -- What had been taken at first has been taken before this step.
      intro hawaiting
      rw [hawaiting] at hrank
      cases hstate : g.state with
      | awaiting => exact htaken hstate
      | active => simp [hstate, Branch.rank] at hrank
      | done => simp [hstate, Branch.rank] at hrank
    · rename_i hcounts
      -- The step was not about this group.
      subst hnext
      rw [if_neg hcounts]
      exact ⟨hrank, hdone⟩

/-- The groups are kept in order all the while. -/
private theorem Lasts.sane {h n : Nat} {c d : Conditionals} (hlasts : Lasts h c n d) (hc : Sane c) :
    Sane d := by
  induction hlasts with
  | here _ => exact hc
  | step _ s _ ih => exact ih.shift (shift_after _ s)

/-- Two moments at which code is emitted inside of a group lie in the same branch. -/
private theorem Lasts.same_branch {h n : Nat} {c d : Conditionals} (hlasts : Lasts h c n d)
    (hc : Sane c) (hactive : c.active = true) (hactive' : d.active = true) : n = 0 := by
  obtain ⟨g, g', hg, hg', -, hdone⟩ := hlasts.group
  have hstate := hc.linked.active_iff.1 hactive g (mem_of_group? hg)
  have hstate' := (hlasts.sane hc).linked.active_iff.1 hactive' g' (mem_of_group? hg')
  cases Nat.eq_zero_or_pos n with
  | inl hzero => exact hzero
  | inr hpos =>
    -- A further branch was started of a group that had taken one.
    have hend := hdone hpos (by simp [hstate])
    rw [hend] at hstate'
    cases hstate'

/-- A group in a branch that is taken is done when a further one is started. -/
private theorem Shift.done_of_active {c d : Conditionals} {s : GroupStep} (hshift : Shift c s d)
    (hstarts : s.startsBranch = true) {g : Group} {gs : List Group} (hgroups : c.groups = g :: gs)
    (hstate : g.state = .active) : ∃ g', d.groups = g' :: gs ∧ g'.state = .done := by
  cases hshift with
  | opens _ hnot =>
    rw [hstarts] at hnot
    cases hnot
  -- The branch that is taken ends here.
  | turns _ htop hturns =>
    rw [hgroups] at htop
    cases htop
    exact ⟨_, rfl, hturns.taken (by simp [hstate])⟩
  -- A group that is not there has no branch.
  | closes _ hnone =>
    rw [hnone hstarts] at hgroups
    cases hgroups

/-- A condition of a further branch matters just if the innermost group has taken none and stands in
code that is emitted. -/
theorem Sane.elifTested_iff {c : Conditionals} (h : Sane c) : c.elifTested = true ↔
    ∃ g gs, c.groups = g :: gs ∧ g.state = .awaiting ∧ g.parentActive = true := by
  have hseen := h.seenElse
  unfold elifTested
  cases hgroups : c.groups with
  | nil => simp
  | cons g gs =>
    -- A group that waits has not seen its last branch.
    have hnot : g.state = .awaiting → g.seenElse = false := by
      intro hstate
      cases hlast : g.seenElse with
      | false => rfl
      | true => exact absurd hstate (hseen g (by simp [hgroups]) hlast)
    simp only [List.head?_cons, Option.any_some, Bool.and_eq_true, Bool.not_eq_true',
      decide_eq_true_eq, List.cons.injEq]
    constructor
    · rintro ⟨⟨-, hstate⟩, hparent⟩
      exact ⟨g, gs, ⟨rfl, rfl⟩, hstate, hparent⟩
    · rintro ⟨_, _, ⟨rfl, rfl⟩, hstate, hparent⟩
      exact ⟨⟨hnot hstate, hstate⟩, hparent⟩

end Conditionals

/-! ## Conditions -/

namespace Context

/-- What the action does depends on the condition that it is given: it asks for it. -/
def Consults (act : ContextM Bool → ContextM Unit) (x : Context) : Prop :=
  ∃ condition condition' : ContextM Bool, act condition x ≠ act condition' x

/-- The condition of a group is asked for just if the group is opened in code that is emitted. -/
theorem consults_openGroup_iff (x : Context) :
    Consults openGroup x ↔ x.conditionals.active = true := by
  constructor
  · rintro ⟨condition, condition', hne⟩
    cases htested : x.conditionals.opensTested with
    | true => exact htested
    | false =>
      apply absurd _ hne
      rw [openGroup_eq, openGroup_eq, htested]
      rfl
  · intro hactive
    have htested : x.conditionals.opensTested = true := hactive
    -- One condition ends the run, the other does not.
    refine ⟨throw .codeOverflow, pure true, ?_⟩
    rw [openGroup_eq, openGroup_eq, htested]
    nofun

private theorem setConditionals_ne_error (next : Option (Noted Conditionals)) (x y : Context)
    (e : Failure) : setConditionals next x ≠ .error e y := by
  cases next <;> nofun

/-- The condition of a further branch is asked for just if it can make the group take that branch.
-/
theorem consults_elifBranch_iff (x : Context) :
    Consults elifBranch x ↔ x.conditionals.elifTested = true := by
  constructor
  · rintro ⟨condition, condition', hne⟩
    cases htested : x.conditionals.elifTested with
    | true => rfl
    | false =>
      apply absurd _ hne
      rw [elifBranch_eq, elifBranch_eq, htested]
      rfl
  · intro htested
    -- Again one condition ends the run, and the other cannot.
    refine ⟨throw .codeOverflow, pure true, ?_⟩
    rw [elifBranch_eq, elifBranch_eq, htested]
    exact (setConditionals_ne_error (x.conditionals.elif? true) x x .codeOverflow).symm

end Context

namespace Conditionals

/-- After every sequence of steps the open groups are in order. From then on a group goes only
forward while it is open, and at two moments at which code is emitted inside of it no further branch
of it has been started in between; one that is in a branch that is taken is done as soon as a
further one is started. A condition is asked for just if the group that it opens, or the group that
it may make take a branch because it has taken none, stands in code that is emitted. -/
theorem groups_of_history (steps : List GroupStep) :
    (history steps).Coherent ∧
    (∀ h n d, Lasts h (history steps) n d →
      ∃ g g', (history steps).group? h = some g ∧ d.group? h = some g' ∧
        g.state.rank ≤ g'.state.rank ∧
        ((history steps).active = true → d.active = true → n = 0)) ∧
    (∀ s g gs, s.startsBranch = true → (history steps).groups = g :: gs → g.state = .active →
      ∃ g', ((history steps).after s).groups = g' :: gs ∧ g'.state = .done) ∧
    ∀ x : Context, x.conditionals = history steps →
      (Context.Consults Context.openGroup x ↔ (history steps).active = true) ∧
      (Context.Consults Context.elifBranch x ↔
        ∃ g gs, (history steps).groups = g :: gs ∧ g.state = .awaiting ∧
          g.parentActive = true) := by
  -- The four parts are about every sane stack, and those that come about are sane.
  have hsane := sane_history steps
  refine ⟨hsane.coherent, ?_, ?_, ?_⟩
  · intro h n d hlasts
    obtain ⟨g, g', hg, hg', hrank, -⟩ := hlasts.group
    exact ⟨g, g', hg, hg', hrank, hlasts.same_branch hsane⟩
  · intro s g gs hstarts hgroups hstate
    exact (shift_after _ s).done_of_active hstarts hgroups hstate
  · intro x hx
    rw [Context.consults_openGroup_iff, Context.consults_elifBranch_iff, hx]
    exact ⟨Iff.rfl, hsane.elifTested_iff⟩

/-- The last branch is taken and then started again: nothing more of the group is emitted, also not
in a branch that comes after it. -/
theorem groups_of_history_otherwiseTwice :
    let before := history [.opens false, .otherwise]
    let later := history [.opens false, .otherwise, .otherwise, .elif true]
    Lasts 0 before 2 later ∧ before.active = true ∧ later.active = false := by
  intro before later
  have hlasts : Lasts 0 before 2 later :=
    .step (.step (.here (by decide)) .otherwise (by decide)) (.elif true) (by decide)
  have hbefore : before.active = true := by decide
  refine ⟨hlasts, hbefore, ?_⟩
  obtain ⟨-, hlives, -⟩ := groups_of_history [.opens false, .otherwise]
  obtain ⟨_, _, _, _, _, hsame⟩ := hlives 0 2 later hlasts
  -- Two branches of one group are never both taken.
  cases hlater : later.active with
  | false => rfl
  | true => cases hsame hbefore hlater

end Conditionals

end Preproc
