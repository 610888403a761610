import Preproc.Proofs.Preprocessor.Abreast
import Preproc.Proofs.Preprocessor.Nesting

/-!
# Skipped text

Text that is skipped has no influence on a run. The lines are still read, and the conditional
directives among them open, change and close groups; but each of these groups stands in code that is
skipped, so none of them ever becomes active, no condition is tested, and once they are closed the
groups are what they were (`runFrom_skipped`). Only notes are left of the lines.

The other half of the argument is that two runs whose main files differ only in the skipped lines
are abreast until they come to them, and again after them.

## Key results

- `directive_skipped`: what a line that starts with `#` does in skipped code
- `runFrom_skipped`: skipped lines that are properly nested leave nothing but notes
- `Orderly.advance`: in every state, text waits to be expanded only where code counts
- `skipped_lines_immaterial`: two texts that differ only in skipped lines give the same run
-/

namespace Preproc

/-! ## Properly nested lines -/

/-- How many groups are open after a directive, if `n` are open before it; `none` if it changes or
closes a group and none is open. -/
def Directive.levelAfter (n : Nat) : Directive → Option Nat
  | ifTrue _ | ifdef _ | ifndef _ => some (n + 1)
  | elifTrue _ | elifdef _ | elifndef _ | otherwise => if n = 0 then none else some n
  | endif => if n = 0 then none else some (n - 1)
  | _ => some n

/-- How many groups are open after a skipped line, if `n` are open before it. -/
def levelAfter (n : Nat) (line : List Token) : Option Nat :=
  match (parseLine true line).value with
  | .error _ => some n
  | .ok (d, _) => d.directive.levelAfter n

/-- The conditional directives among the lines are properly nested: they change and close only
groups that they have opened, and close all of these. -/
def Nested (lines : List (List Token)) : Prop :=
  lines.foldlM levelAfter 0 = some 0

instance : DecidablePred Nested :=
  fun lines => inferInstanceAs (Decidable (lines.foldlM levelAfter 0 = some 0))

/-- A line of text neither opens nor closes a group. -/
private theorem levelAfter_of_text {line : List Token} (h : line.head?.any Token.isHash = false)
    (n : Nat) : levelAfter n line = some n := by
  cases line with
  | nil => rfl
  | cons t rest =>
    have ht : t.isHash = false := h
    simp [levelAfter, parseLine, parseLineWith, ht]

/-! ## Groups in skipped code -/

/-- On top of the groups `outer` there are `n` groups that stand in skipped code. -/
def Conditionals.Skipped (outer : List Group) (n : Nat) (c : Conditionals) : Prop :=
  ∃ inner : List Group, c.groups = inner ++ outer ∧ inner.length = n ∧
    ∀ g ∈ inner, g.parentActive = false

namespace Conditionals.Skipped

variable {outer : List Group} {n : Nat} {c : Conditionals}

/-- Code stays skipped in groups that stand in skipped code. -/
theorem active_eq (h : Skipped outer n c) (houter : (⟨outer⟩ : Conditionals).active = false) :
    c.active = false := by
  obtain ⟨inner, hgroups, -, hinner⟩ := h
  unfold active
  rw [hgroups]
  -- The innermost group decides, and its parent is skipped.
  cases inner with
  | nil => exact houter
  | cons g inner =>
    show g.inActiveBranch = false
    unfold Group.inActiveBranch
    rw [hinner g (by simp)]
    rfl

/-- A group that is opened in skipped code stands in skipped code. -/
theorem openGroup (h : Skipped outer n c) (hactive : c.active = false) (test : Bool) :
    Skipped outer (n + 1) (c.openGroup test) := by
  obtain ⟨inner, hgroups, hlength, hinner⟩ := h
  refine ⟨⟨.awaiting, false, false⟩ :: inner, ?_, by simp [hlength], by simpa using hinner⟩
  simp [Conditionals.openGroup, hactive, hgroups]

/-- One of the groups that stand in skipped code is innermost, if there are any. -/
theorem innermost (h : Skipped outer (n + 1) c) :
    ∃ g gs, c.groups = g :: gs ∧ g.parentActive = false ∧ Skipped outer n ⟨gs⟩ ∧
      ∀ g' : Group, g'.parentActive = false → Skipped outer (n + 1) ⟨g' :: gs⟩ := by
  obtain ⟨inner, hgroups, hlength, hinner⟩ := h
  cases inner with
  | nil => cases hlength
  | cons g inner =>
    -- One group less is open in the skipped code behind it.
    have hrest : inner.length = n := by simpa using hlength
    obtain ⟨hg, hinner⟩ := List.forall_mem_cons.1 hinner
    refine ⟨g, inner ++ outer, hgroups, hg, ⟨inner, rfl, hrest, hinner⟩, fun g' hg' => ?_⟩
    exact ⟨g' :: inner, rfl, by simp [hrest], List.forall_mem_cons.2 ⟨hg', hinner⟩⟩

/-- The condition of another branch is not tested in skipped code. -/
theorem elifTested_eq (h : Skipped outer (n + 1) c) : c.elifTested = false := by
  obtain ⟨g, gs, hgroups, hg, -, -⟩ := h.innermost
  simp [elifTested, hgroups, hg]

/-- Another branch of a group in skipped code leaves it there. -/
theorem elif? (h : Skipped outer (n + 1) c) (test : Bool) :
    ∃ x, c.elif? test = some x ∧ Skipped outer (n + 1) x.value := by
  obtain ⟨g, gs, hgroups, hg, -, hchanged⟩ := h.innermost
  -- A group keeps what it stands in, whichever of its branches is taken.
  have hparent : (elifGroup g test).value.parentActive = false := by
    rw [← hg]
    unfold elifGroup
    split
    · rfl
    · split
      · rfl
      · simp only [Noted.value_pure]
        split <;> rfl
      · rfl
  refine ⟨(fun g' => ⟨g' :: gs⟩) <$> elifGroup g test, ?_, hchanged _ hparent⟩
  unfold Conditionals.elif?
  rw [hgroups]

/-- The last branch of a group in skipped code leaves it there. -/
theorem otherwise? (h : Skipped outer (n + 1) c) :
    ∃ x, c.otherwise? = some x ∧ Skipped outer (n + 1) x.value := by
  obtain ⟨g, gs, hgroups, hg, -, hchanged⟩ := h.innermost
  -- A group keeps what it stands in, whichever of its branches is taken.
  have hparent : (otherwiseGroup g).value.parentActive = false := by
    rw [← hg]
    unfold otherwiseGroup
    split
    · rfl
    · split <;> rfl
  refine ⟨(fun g' => ⟨g' :: gs⟩) <$> otherwiseGroup g, ?_, hchanged _ hparent⟩
  unfold Conditionals.otherwise?
  rw [hgroups]

/-- A group in skipped code can be closed. -/
theorem endif? (h : Skipped outer (n + 1) c) :
    ∃ c', c.endif? = some c' ∧ Skipped outer n c' := by
  obtain ⟨g, gs, hgroups, -, hclosed, -⟩ := h.innermost
  refine ⟨⟨gs⟩, ?_, hclosed⟩
  unfold Conditionals.endif?
  rw [hgroups]

end Conditionals.Skipped

namespace Context

open Conditionals (Skipped)

/-! ## Skipped lines -/

/-- Only notes and open groups have changed. -/
def Passed (c c' : Context) : Prop :=
  ∃ conditionals notes, c' = { c with conditionals := conditionals, notes := notes }

/-- Lines that leave only notes and groups leave only these together. -/
theorem Passed.trans {c c₁ c₂ : Context} (h : c.Passed c₁) (h' : c₁.Passed c₂) : c.Passed c₂ := by
  obtain ⟨_, _, rfl⟩ := h
  obtain ⟨conditionals, notes, rfl⟩ := h'
  exact ⟨conditionals, notes, rfl⟩

private theorem passed_noting (c : Context) (notes : List Note) : c.Passed (c.noting notes) :=
  ⟨_, _, rfl⟩

/-- Once the groups are what they were, only notes have changed. -/
private theorem silent_of_passed {c c' : Context} (h : c.Passed c')
    (hsame : Skipped c.conditionals.groups 0 c'.conditionals) : c'.silent = c.silent := by
  obtain ⟨conditionals, notes, rfl⟩ := h
  obtain ⟨inner, hgroups, hlength, -⟩ := hsame
  obtain rfl := List.length_eq_zero_iff.1 hlength
  obtain rfl : conditionals = c.conditionals := congrArg Conditionals.mk hgroups
  rfl

variable {env : Environment} {base : Nat} {outer : List Group} {n m : Nat} {c : Context}

/-- A group that is opened in skipped code is never active, and its condition is not tested. -/
private theorem openGroup_skipped (h : Skipped outer n c.conditionals)
    (houter : (⟨outer⟩ : Conditionals).active = false) (condition : ContextM Bool) :
    ∃ c', (do
        openGroup condition
        pure none : ContextM (Option Inclusion)) c = .ok none c' ∧ c.Passed c' ∧
      Skipped outer (n + 1) c'.conditionals := by
  have hactive := h.active_eq houter
  -- The condition of the group is not tested in skipped code.
  have htested : c.conditionals.opensTested = false := hactive
  have hopen : openGroup condition c =
      .ok () { c with conditionals := c.conditionals.openGroup false } := by
    rw [openGroup_eq, htested]
    rfl
  exact ⟨_, ContextM.bind_of_ok hopen, ⟨_, _, rfl⟩, h.openGroup hactive false⟩

/-- A directive that changes or closes a group that was opened in skipped code. -/
private theorem closing_skipped (h : Skipped outer (n + 1) c.conditionals)
    (hbase : base ≤ outer.length) (d : DirectiveLine) {act : ContextM Unit} {x : Noted Conditionals}
    (hact : act c = setConditionals (some x) c) (hx : Skipped outer m x.value) :
    ∃ c', (do
        if ← closesGroup env base d then act
        pure none : ContextM (Option Inclusion)) c = .ok none c' ∧ c.Passed c' ∧
      Skipped outer m c'.conditionals := by
  -- The group was opened in this file.
  have hdepth : base < c.conditionals.depth := by
    obtain ⟨inner, hgroups, hlength, -⟩ := h
    have hlength : c.conditionals.groups.length = inner.length + outer.length := by
      rw [hgroups, List.length_append]
    unfold Conditionals.depth
    omega
  have hcloses : closesGroup env base d c = .ok true c := by
    unfold closesGroup
    rw [ContextM.get_bind, if_pos hdepth]
    rfl
  refine ⟨{ c.noting x.notes with conditionals := x.value }, ?_, ⟨_, _, rfl⟩, hx⟩
  rw [ContextM.bind_of_ok hcloses]
  exact ContextM.bind_of_ok hact

/-- Another branch of a group that was opened in skipped code. -/
private theorem elifBranch_skipped (h : Skipped outer (n + 1) c.conditionals)
    (hbase : base ≤ outer.length) (d : DirectiveLine) (condition : ContextM Bool) :
    ∃ c', (do
        if ← closesGroup env base d then elifBranch condition
        pure none : ContextM (Option Inclusion)) c = .ok none c' ∧ c.Passed c' ∧
      Skipped outer (n + 1) c'.conditionals := by
  obtain ⟨x, hx, hskipped⟩ := h.elif? false
  refine closing_skipped h hbase d ?_ hskipped
  -- The condition of another branch is not tested in skipped code either.
  rw [elifBranch_eq, h.elifTested_eq]
  show setConditionals (c.conditionals.elif? false) c = _
  rw [hx]

/-- What a conditional directive does in skipped code. -/
private theorem carryOut_skipped (h : Skipped outer n c.conditionals)
    (houter : (⟨outer⟩ : Conditionals).active = false) (hbase : base ≤ outer.length)
    {d : DirectiveLine} (hconditional : d.directive.isConditional = true)
    (hlevel : d.directive.levelAfter n = some m) :
    ∃ c', carryOut env base d c = .ok none c' ∧ c.Passed c' ∧ Skipped outer m c'.conditionals := by
  obtain ⟨tokens, directive⟩ := d
  cases directive with
  | ifTrue _ | ifdef _ | ifndef _ =>
    cases hlevel
    exact openGroup_skipped h houter _
  | elifTrue _ | elifdef _ | elifndef _ =>
    -- Outside of the groups of the skipped code, such a directive belongs to the group around it.
    cases n with
    | zero => cases hlevel
    | succ n =>
      cases hlevel
      exact elifBranch_skipped h hbase _ _
  | otherwise =>
    cases n with
    | zero => cases hlevel
    | succ n =>
      cases hlevel
      obtain ⟨x, hx, hskipped⟩ := h.otherwise?
      refine closing_skipped h hbase _ ?_ hskipped
      show setConditionals c.conditionals.otherwise? c = _
      rw [hx]
  | endif =>
    cases n with
    | zero => cases hlevel
    | succ n =>
      cases hlevel
      obtain ⟨closed, hclosed, hskipped⟩ := h.endif?
      refine closing_skipped (x := ⟨closed, []⟩) h hbase _ ?_ hskipped
      show setConditionals (c.conditionals.endif?.map fun c => ⟨c, []⟩) c = _
      rw [hclosed]
      rfl
  | define | undef | inclusion | pragma | other => cases hconditional

private theorem levelAfter_of_not_conditional {d : Directive} (h : d.isConditional = false)
    (n : Nat) : d.levelAfter n = some n := by
  cases d <;> simp_all [Directive.isConditional, Directive.levelAfter]

/-- What a line that starts with `#` does in skipped code: it may open, change or close a group that
stands in skipped code, and makes notes. -/
theorem directive_skipped (h : Skipped outer n c.conditionals)
    (houter : (⟨outer⟩ : Conditionals).active = false) (hbase : base ≤ outer.length)
    {line : List Token} (hlevel : levelAfter n line = some m) :
    ∃ c', directive env base line c = .ok none c' ∧ c.Passed c' ∧
      Skipped outer m c'.conditionals := by
  unfold directive
  unfold levelAfter at hlevel
  rw [ContextM.get_bind, h.active_eq houter]
  simp only [Bool.not_false]
  rw [ContextM.bind_of_ok (keep_apply _ c)]
  generalize parseLine true line = parsed at hlevel ⊢
  obtain ⟨value, notes⟩ := parsed
  cases value with
  | error e =>
    cases hlevel
    exact ⟨_, rfl, ⟨_, _, rfl⟩, h⟩
  | ok read =>
    obtain ⟨d, rest⟩ := read
    simp only [Bool.true_and] at hlevel ⊢
    cases hconditional : d.directive.isConditional with
    | false =>
      -- Any other directive is passed over.
      rw [levelAfter_of_not_conditional hconditional] at hlevel
      cases hlevel
      exact ⟨_, rfl, passed_noting c notes, h⟩
    | true =>
      obtain ⟨c', hdone, hpassed, hskipped⟩ := carryOut_skipped (c := c.noting notes) h houter hbase
        hconditional hlevel
      exact ⟨c', hdone, (passed_noting c notes).trans hpassed, hskipped⟩

end Context

namespace Preprocessor

open Conditionals (Skipped)

section Skipped

variable {f : OpenFile} {files : List OpenFile} {outer : List Group}

/-- The run after skipped lines, of which only notes and open groups are left. -/
def past (p : Preprocessor) (f : OpenFile) (files : List OpenFile) (c : Context)
    (lines : List (Noted (List Token))) : Preprocessor :=
  { p with context := c, files := { f with lines } :: files }

/-- A step over a skipped line. -/
private theorem step_skipped {p : Preprocessor} {n m : Nat} {line : Noted (List Token)}
    {lines : List (Noted (List Token))} (hfiles : p.files = f :: files)
    (hlines : f.lines = line :: lines) (hpending : f.pending = [])
    (h : Skipped outer n p.context.conditionals) (houter : (⟨outer⟩ : Conditionals).active = false)
    (hbase : f.base ≤ outer.length) (hlevel : levelAfter n line.value = some m) :
    ∃ c, p.step = .more (p.past f files c lines) [] ∧ p.context.Passed c ∧
      Skipped outer m c.conditionals := by
  simp only [step, hfiles, hlines, takeLine, doing_of_ok (Context.keep_apply _ _), hpending]
  cases hhash : line.value.head?.any Token.isHash with
  -- A directive may change the level, and does nothing else.
  | true =>
    obtain ⟨c, hdone, hpassed, hskipped⟩ := @Context.directive_skipped p.env f.base outer n m
      (p.context.noting line.notes) h houter hbase line.value hlevel
    refine ⟨c, ?_, (Context.passed_noting _ _).trans hpassed, hskipped⟩
    simp only [List.isEmpty_nil, if_true]
    rw [doing_of_ok hdone]
    simp only [past, hpending]
  -- Text is passed over.
  | false =>
    rw [levelAfter_of_text hhash] at hlevel
    cases hlevel
    refine ⟨p.context.noting line.notes, ?_, Context.passed_noting _ _, h⟩
    have hactive : (p.context.noting line.notes).conditionals.active = false := h.active_eq houter
    simp only [hactive, past, hpending, Bool.false_eq_true, if_false]

/-- Skipped lines leave nothing but notes and open groups. -/
theorem runFrom_skipped {p : Preprocessor} {n m : Nat} {skipped rest : List (List Token)}
    (hfiles : p.files = f :: files) (hleft : f.left = skipped ++ rest) (hpending : f.pending = [])
    (h : Skipped outer n p.context.conditionals)
    (houter : (⟨outer⟩ : Conditionals).active = false) (hbase : f.base ≤ outer.length)
    (hlevel : skipped.foldlM levelAfter n = some m) :
    ∃ c lines, (∀ j out, p.runFrom j out = (p.past f files c lines).runFrom j out) ∧
      lines.map (·.value) = rest ∧ p.context.Passed c ∧ Skipped outer m c.conditionals := by
  induction skipped generalizing p f n with
  | nil =>
    cases hlevel
    refine ⟨p.context, f.lines, fun j out => ?_, hleft, ⟨_, _, rfl⟩, h⟩
    have hsame : p.past f files p.context f.lines = p := by
      unfold past
      rw [← hfiles]
    rw [hsame]
  -- One line is stepped over, and the induction goes on behind it.
  | cons line skipped ih =>
    obtain ⟨first, lines, hlines, rfl, hmore⟩ := List.map_eq_cons_iff.1 hleft
    obtain ⟨k, hk, hlevel⟩ := Option.bind_eq_some_iff.1 hlevel
    obtain ⟨c, hstep, hpassed, hskipped⟩ := step_skipped hfiles hlines hpending h houter hbase hk
    obtain ⟨c', lines', hrun, hrest, hpassed', hskipped'⟩ :=
      ih (p := p.past f files c lines) (f := { f with lines }) rfl hmore hpending hskipped hbase
        hlevel
    refine ⟨c', lines', fun j out => ?_, hrest, hpassed.trans hpassed', hskipped'⟩
    rw [runFrom_of_more hstep]
    exact hrun j out

end Skipped

/-! ## Where text waits -/

/-- Text waits to be expanded only in the innermost file, and only where code counts. The groups
that were open when the main file was opened are open while it is. -/
structure Orderly (p : Preprocessor) : Prop where
  collecting : ∀ f files, p.files = f :: files →
    f.pending = [] ∨ p.context.conditionals.active = true
  waiting : ∀ f ∈ p.files.tail, f.pending = []
  sheltered : p.stage = .main → p.files ≠ [] → ∃ outer, Shelters outer [] p

/-- Nothing is out of order where no text waits. -/
private theorem orderly_of_forall {p : Preprocessor} (hpending : ∀ f ∈ p.files, f.pending = [])
    (hsheltered : p.stage = .main → p.files ≠ [] → ∃ outer, Shelters outer [] p) : p.Orderly := by
  refine ⟨?_, fun f hf => hpending f (List.mem_of_mem_tail hf), hsheltered⟩
  intro f files hfiles
  exact .inl (hpending f (by simp [hfiles]))

/-- In a file that has just been opened no text waits. -/
private theorem pending_enter {p : Preprocessor} (hpending : ∀ f ∈ p.files, f.pending = [])
    (name : String) (content : Option (List Char)) :
    ∀ f ∈ (p.enter name content).files, f.pending = [] := by
  cases content with
  | none => exact hpending
  | some text => exact List.forall_mem_cons.2 ⟨rfl, hpending⟩

private theorem enter_stage (p : Preprocessor) (name : String) (content : Option (List Char)) :
    (p.enter name content).stage = p.stage := by
  cases content <;> rfl

/-- While the main file is open, the groups are open on top of which it was opened. -/
private theorem Orderly.shelters_advance {p q : Preprocessor} {out : List Token} (h : p.Orderly)
    (hstep : Advance p q out) (hmain : q.stage = .main) (hfiles : q.files ≠ []) :
    ∃ outer, Shelters outer [] q := by
  -- The main file was open before, and nothing but closing it gives up the groups.
  have hstays : p.stage = .main → p.files ≠ [] → ∃ outer, Shelters outer [] q := by
    intro hp hopen
    obtain ⟨outer, hshelters⟩ := h.sheltered hp hopen
    cases hshelters.advance hstep with
    | inl hstays => exact ⟨outer, hstays⟩
    | inr hclosed => exact absurd (List.map_eq_nil_iff.1 hclosed.1) hfiles
  cases hstep with
  | main hnone hstage =>
    have hshelters := shelters_of_advance (.main hnone hstage) (by simp [hnone, enter])
    have hbases : p.bases = [] := by
      rw [bases, hnone]
      rfl
    rw [hbases] at hshelters
    exact ⟨_, hshelters⟩
  | missing => cases hmain
  | forced =>
    rw [enter_stage] at hmain
    cases hmain
  | collect hf => exact hstays hmain (by simp [hf])
  | flush hf => exact hstays hmain (by simp [hf])
  | flushLast hf => exact hstays hmain (by simp [hf])
  | directive hf => exact hstays hmain (by simp [hf])
  | inclusion hf =>
    rw [enter_stage] at hmain
    exact hstays hmain (by simp [hf])
  | close hf => exact hstays hmain (by simp [hf])
  | closeMain => cases hmain

/-- In every state, text waits to be expanded only where code counts. -/
theorem Orderly.advance {p q : Preprocessor} {out : List Token} (h : p.Orderly)
    (hstep : Advance p q out) : q.Orderly := by
  have hsheltered := h.shelters_advance hstep
  -- Only a line of text leaves something to be expanded; after every other step nothing waits.
  cases hstep with
  | main hnone _ =>
    refine orderly_of_forall (pending_enter ?_ _ _) hsheltered
    simp [hnone]
  | missing hnone => exact orderly_of_forall (by simp [hnone]) hsheltered
  | forced hnone =>
    refine orderly_of_forall (pending_enter ?_ _ _) hsheltered
    simp [hnone]
  | @collect f files line lines hfiles =>
    have hwaiting := h.waiting
    rw [hfiles] at hwaiting
    refine ⟨?_, hwaiting, hsheltered⟩
    rintro g gs hgs
    obtain ⟨rfl, -⟩ := List.cons.inj hgs
    cases hactive : p.context.conditionals.active with
    | true => exact .inr hactive
    | false =>
      have hcollecting := h.collecting f files hfiles
      rw [hactive] at hcollecting
      exact .inl (by simpa using hcollecting)
  | flush hfiles =>
    have hwaiting := h.waiting
    rw [hfiles] at hwaiting
    exact orderly_of_forall (List.forall_mem_cons.2 ⟨rfl, hwaiting⟩) hsheltered
  | flushLast hfiles =>
    have hwaiting := h.waiting
    rw [hfiles] at hwaiting
    exact orderly_of_forall (List.forall_mem_cons.2 ⟨rfl, hwaiting⟩) hsheltered
  | directive hfiles _ _ hpending =>
    have hwaiting := h.waiting
    rw [hfiles] at hwaiting
    exact orderly_of_forall
      (List.forall_mem_cons.2 ⟨List.isEmpty_iff.1 hpending, hwaiting⟩) hsheltered
  | inclusion hfiles _ _ hpending =>
    have hwaiting := h.waiting
    rw [hfiles] at hwaiting
    refine orderly_of_forall (pending_enter ?_ _ _) hsheltered
    exact List.forall_mem_cons.2 ⟨List.isEmpty_iff.1 hpending, hwaiting⟩
  | close hfiles =>
    have hwaiting := h.waiting
    rw [hfiles] at hwaiting
    exact orderly_of_forall hwaiting hsheltered
  | closeMain => exact orderly_of_forall (by simp) hsheltered

/-- Text that waits has been collected where code counts, so none waits where it is skipped; and
there the main file can reach no group on top of which it was opened. -/
private theorem Orderly.of_skipped {p : Preprocessor} {f : OpenFile} (h : p.Orderly)
    (hmain : p.stage = .main) (hfiles : p.files = [f])
    (hskipped : p.context.conditionals.active = false) :
    f.pending = [] ∧ f.base ≤ p.context.conditionals.groups.length := by
  constructor
  · -- Text is only collected where it is not skipped.
    have hcollecting := h.collecting f [] hfiles
    rw [hskipped] at hcollecting
    simpa using hcollecting
  · -- The groups that were open before the file are below its base.
    obtain ⟨outer, hshelters⟩ := h.sheltered hmain (by simp [hfiles])
    have habove := hshelters.above
    rw [bases_of_files hfiles] at habove
    generalize f.base = base at habove
    cases habove with
    | here => exact hshelters.groups.length_le
    | there _ more => cases more

/-! ## Runs on texts that differ in skipped lines -/

/-- Wherever the run from `p` comes to that has the lines `lines` of the main file left, code is
skipped. -/
def SkipsFrom (p : Preprocessor) (lines : List (List Token)) : Prop :=
  ∀ q f, Reaches p q → q.stage = .main → q.files = [f] → f.left = lines →
    q.context.conditionals.active = false

/-- Two runs that are abreast and have come to skipped lines are abreast after them. -/
private theorem Abreast.runFrom_at_skipped {S S' B : List (List Token)} (hS : Nested S)
    (hS' : Nested S') {p p' : Preprocessor} {f : OpenFile} (h : Abreast (S ++ B) (S' ++ B) p p')
    (horderly : p.Orderly) (hmain : p.stage = .main) (hfiles : p.files = [f])
    (hleft : f.left = S ++ B) (hskipped : p.context.conditionals.active = false) (j : Joiner)
    (out : List Token) : EndAlike (p.runFrom j out) (p'.runFrom j out) := by
  obtain ⟨hpending, hbase⟩ := horderly.of_skipped hmain hfiles hskipped
  have hmain' : StageAbreast [] [] p.stage p'.stage := by
    have hstage := h.stage
    rw [hmain] at hstage ⊢
    generalize p'.stage = stage' at hstage ⊢
    cases hstage
    exact .main
  have hsame : p'.context.conditionals = p.context.conditionals :=
    Context.conditionals_of_silent h.context
  have hinner : ∀ c : Conditionals, Skipped c.groups 0 c := fun c => ⟨[], rfl, rfl, by simp⟩
  have hfiles' := h.files
  rw [hfiles] at hfiles'
  generalize hp' : p'.files = files' at hfiles'
  cases hfiles' with
  | above hf rest =>
    -- The file holds the same lines in both runs.
    cases rest with
    | none =>
      refine Abreast.runFrom ⟨h.env, h.context, hmain', ?_⟩ j out
      rw [hfiles, hp']
      exact .above hf .none
  | @main _ f' _ hf =>
    obtain ⟨common, hcommon, hleft'⟩ := hf.lines
    obtain rfl : common = [] := List.append_left_eq_self.1 (hcommon.symm.trans hleft)
    rw [List.nil_append] at hleft'
    obtain ⟨c, lines, hrun, hrest, hpassed, hgroups⟩ :=
      runFrom_skipped hfiles hleft hpending (hinner _) hskipped hbase hS
    obtain ⟨c', lines', hrun', hrest', hpassed', hgroups'⟩ :=
      runFrom_skipped hp' hleft' (hf.pending.trans hpending) (hinner _)
        (by rw [hsame]; exact hskipped) (by rw [hsame, hf.base]; exact hbase) hS'
    -- Both runs have the lines `B` left now, and what has passed is in the notes alone.
    have habreast : Abreast [] [] (p.past f [] c lines) (p'.past f' [] c' lines') := by
      refine ⟨h.env, ?_, hmain', .above ?_ .none⟩
      · show c'.silent = c.silent
        rw [Context.silent_of_passed hpassed' hgroups', Context.silent_of_passed hpassed hgroups]
        exact h.context
      · exact ⟨hf.name, hf.pending, hf.base, hf.eof, B, by simpa [OpenFile.left] using hrest,
          by simpa [OpenFile.left] using hrest'⟩
    rw [hrun, hrun']
    exact habreast.runFrom j out

/-- Two runs that are abreast up to skipped lines end alike. -/
private theorem Abreast.runFrom_of_skips {S S' B : List (List Token)} (hS : Nested S)
    (hS' : Nested S') {p p' : Preprocessor} (h : Abreast (S ++ B) (S' ++ B) p p')
    (horderly : p.Orderly) (hskips : p.SkipsFrom (S ++ B)) (j : Joiner) (out : List Token) :
    EndAlike (p.runFrom j out) (p'.runFrom j out) := by
  induction p using wellFounded_below.induction generalizing p' j out with
  | _ p ih =>
    -- Either the skipped lines come next, or the two runs take a step together.
    by_cases hat : ∃ f, p.stage = .main ∧ p.files = [f] ∧ f.left = S ++ B
    · obtain ⟨f, hmain, hfiles, hleft⟩ := hat
      have hskipped := hskips p f (.refl p) hmain hfiles hleft
      exact h.runFrom_at_skipped hS hS' horderly hmain hfiles hleft hskipped j out
    · refine (h.step (.inr ?_)).runFrom j out fun q q' ts hstep hq => ?_
      · intro f hmain hfiles hleft
        exact hat ⟨f, hmain, hfiles, hleft⟩
      · refine ih q (below_of_step hstep) hq (horderly.advance (advance_of_step hstep)) ?_ _ _
        intro r f hreaches
        exact hskips r f (.step hstep hreaches)

/-- The run `p` once it has been started on the text of the main file. -/
def onText (p : Preprocessor) (file : String) (text : List Char) : Preprocessor :=
  { p with stage := .forced p.env.config.forceIncludes file text }

private theorem orderly_onText (config : Config) (disk : Disk) (now : Clock) (nesting : Nat)
    (file : String) (text : List Char) :
    ((ofConfig config disk now nesting).onText file text).Orderly :=
  orderly_of_forall (fun _ hf => nomatch hf) fun _ hfiles => absurd rfl hfiles

end Preprocessor

/-- The tokens of the logical lines of a text. -/
def lineTokens (file : String) (text : List Char) : List (List Token) :=
  (lexText file text).value.lines.1.map (·.value)

/-- The token that ends a text. -/
def endToken (file : String) (text : List Char) : Token :=
  (lexText file text).value.eof.value

open Preprocessor in
/-- Skipped lines are immaterial. Let two texts have the same lines up to `d` and from `e` on, and
in between lines `S` in one and `S'` in the other, each properly nested. If after `d` code is
skipped, the two runs on these texts give the same tokens, the same problems, the same definitions
in the end, and fail alike if they do. -/
theorem skipped_lines_immaterial (config : Config) (disk : Disk) (now : Clock) (nesting : Nat)
    (file : String) (text text' : List Char) (A S S' B : List (List Token)) (d e : List Token)
    (htext : lineTokens file text = A ++ d :: (S ++ e :: B))
    (htext' : lineTokens file text' = A ++ d :: (S' ++ e :: B))
    (hend : endToken file text' = endToken file text) (hS : Nested S) (hS' : Nested S')
    (hskips : ((ofConfig config disk now nesting).onText file text).SkipsFrom (S ++ e :: B)) :
    let run := (ofConfig config disk now nesting).runText file text
    let run' := (ofConfig config disk now nesting).runText file text'
    run'.tokens = run.tokens ∧ run'.diagnostics = run.diagnostics ∧
      run'.last.context.macros = run.last.context.macros ∧ run'.failure = run.failure := by
  intro run run'
  -- The two main files are abreast, with all lines up to `d` in common.
  have hcommon : ∀ base, (OpenFile.ofText file text base).value.Abreast (S ++ e :: B) (S' ++ e :: B)
      (OpenFile.ofText file text' base).value := by
    intro base
    refine ⟨rfl, rfl, rfl, hend, A ++ [d], ?_, ?_⟩
    · rw [List.append_assoc]
      exact htext
    · rw [List.append_assoc]
      exact htext'
  have habreast : Abreast (S ++ e :: B) (S' ++ e :: B)
      ((ofConfig config disk now nesting).onText file text)
      ((ofConfig config disk now nesting).onText file text') :=
    ⟨rfl, rfl, .forced hcommon, .none⟩
  obtain ⟨htokens, hfailure, hcontext⟩ := habreast.runFrom_of_skips hS hS'
    (orderly_onText config disk now nesting file text) hskips {} []
  obtain ⟨notes, hlast⟩ := Context.exists_notes hcontext
  refine ⟨htokens, ?_, ?_, hfailure⟩
  · show run'.last.context.diagnostics = run.last.context.diagnostics
    exact (congrArg Context.diagnostics hlast :)
  · exact (congrArg Context.macros hlast :)

/-! ## Two texts that differ in skipped lines -/

namespace SkippedLines

/-- A text whose first group is skipped, with a group in it. -/
def text : List Char :=
  "#if 0\n#ifdef Y\n#endif\n#endif\nY".toList

/-- The same text with other lines in the skipped group. -/
def text' : List Char :=
  "#if 0\n#define Y\nY (\n#endif\nY".toList

/-- The lines of the first text. -/
def lines : List (List Token) := lineTokens "t.c" text

/-- The lines of the second text. -/
def lines' : List (List Token) := lineTokens "t.c" text'

/-- A line of the first text. -/
def line (n : Nat) : List Token := lines.getD n []

end SkippedLines

open SkippedLines Preprocessor in
/-- The two texts have the same lines but for the two that are skipped, and in the run on the first
these are skipped; so the runs give the same tokens. -/
theorem skipped_lines_immaterial_definition :
    let skipped := (lines.drop 1).take 2
    let skipped' := (lines'.drop 1).take 2
    (lines = [] ++ line 0 :: (skipped ++ line 3 :: lines.drop 4) ∧
      lines' = [] ++ line 0 :: (skipped' ++ line 3 :: lines.drop 4) ∧
      endToken "t.c" text' = endToken "t.c" text ∧ Nested skipped ∧ Nested skipped' ∧
      skipped ≠ skipped' ∧ (bare.onText "t.c" text).SkipsFrom (skipped ++ line 3 :: lines.drop 4)) ∧
    (bare.runText "t.c" text').tokens = (bare.runText "t.c" text).tokens := by
  intro skipped skipped'
  have hlines : (lines = [] ++ line 0 :: (skipped ++ line 3 :: lines.drop 4) ∧
      lines' = [] ++ line 0 :: (skipped' ++ line 3 :: lines.drop 4)) ∧
      endToken "t.c" text' = endToken "t.c" text ∧ Nested skipped ∧ Nested skipped' ∧
      skipped ≠ skipped' := by
    decide +kernel
  -- The run is followed through all of its states.
  have hstates : allStates (fun p => p.files.all fun f =>
      f.left ≠ skipped ++ line 3 :: lines.drop 4 || !p.context.conditionals.active) 12
      (bare.onText "t.c" text) = true := by
    decide +kernel
  obtain ⟨⟨hsplit, hsplit'⟩, hend, hnested, hnested', hother⟩ := hlines
  have hskips : (bare.onText "t.c" text).SkipsFrom (skipped ++ line 3 :: lines.drop 4) := by
    intro q f hreaches _ hfiles hleft
    have htest := of_allStates hstates hreaches
    rw [hfiles] at htest
    simpa [hleft] using htest
  exact ⟨⟨hsplit, hsplit', hend, hnested, hnested', hother, hskips⟩,
    (skipped_lines_immaterial {} _ _ _ "t.c" text text' [] skipped skipped' (lines.drop 4) (line 0)
      (line 3) hsplit hsplit' hend hnested hnested' hskips).1⟩

end Preproc
