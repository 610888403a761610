import Preproc.Proofs.Preprocessor.Effects
import Preproc.Proofs.Samples

/-!
# Files and the groups around them

All files of a run share one stack of open groups. A file remembers how many groups were open when
it was opened, and these are out of its reach: its directives leave them, the files that it includes
leave them, and when it is closed, what it has left open on top of them is closed with it.

`Shelters outer below p` is the invariant behind this: in `p` there is still open a file that was
opened on top of the groups `outer`, and `outer` is still at the bottom of the open groups.

## Key results

- `Shelters.advance`: a step keeps the groups sheltered until the file is closed
- `conditionals_restored`: a file that has been closed leaves the open groups as they were
-/

namespace Preproc

namespace Preprocessor

/-- For each open file, innermost first, how many groups were open when it was opened. -/
def bases (p : Preprocessor) : List Nat :=
  p.files.map OpenFile.base

/-- The base of the innermost file comes first. -/
theorem bases_of_files {p : Preprocessor} {f : OpenFile} {files : List OpenFile}
    (h : p.files = f :: files) : p.bases = f.base :: files.map OpenFile.base := by
  unfold bases
  rw [h, List.map_cons]

/-- There are as many bases as open files. -/
theorem length_bases (p : Preprocessor) : p.bases.length = p.files.length :=
  List.length_map _

/-! ## The invariant -/

/-- On top of `below` there is `n`, and on top of that nothing that is less. -/
inductive Above (n : Nat) (below : List Nat) : List Nat → Prop
  | here : Above n below (n :: below)
  | there {b : Nat} {bs : List Nat} (le : n ≤ b) (more : Above n below bs) :
      Above n below (b :: bs)

/-- The innermost base is no less. -/
private theorem Above.le_head {n b : Nat} {below bs : List Nat} (h : Above n below (b :: bs)) :
    n ≤ b := by
  cases h with
  | here => exact Nat.le_refl n
  | there le _ => exact le

/-- There is more than what is below. -/
theorem Above.length_lt {n : Nat} {below bs : List Nat} (h : Above n below bs) :
    below.length < bs.length := by
  induction h with
  | here => simp
  | there _ _ ih =>
    rw [List.length_cons]
    omega

/-- A file that was opened on top of the groups `outer` and the files with the bases `below` is
still open, and so are these groups. -/
structure Shelters (outer : List Group) (below : List Nat) (p : Preprocessor) : Prop where
  above : Above outer.length below p.bases
  groups : outer <:+ p.context.conditionals.groups

/-- Files and groups stay sheltered when both stay what they are. -/
theorem Shelters.of_eq {outer : List Group} {below : List Nat} {p q : Preprocessor}
    (h : Shelters outer below p) (hbases : q.bases = p.bases)
    (hgroups : q.context.conditionals = p.context.conditionals) : Shelters outer below q :=
  ⟨by rw [hbases]; exact h.above, by rw [hgroups]; exact h.groups⟩

/-- A file that shelters groups is open. -/
theorem Shelters.files_ne_nil {outer : List Group} {below : List Nat} {p : Preprocessor}
    (h : Shelters outer below p) : p.files ≠ [] := by
  intro hfiles
  have hlength := h.above.length_lt
  rw [length_bases, hfiles] at hlength
  simp at hlength

/-- Opening a file on top of sheltered ones shelters them, too. -/
theorem Shelters.enter {outer : List Group} {below : List Nat} {p : Preprocessor}
    (h : Shelters outer below p) (name : String) (content : Option (List Char)) :
    Shelters outer below (p.enter name content) := by
  cases content with
  | none => exact h
  | some text => exact ⟨.there h.groups.length_le h.above, h.groups⟩

/-- Closing the file `f` closes the groups that it leaves open: the sheltered ones stay, and if the
file is the one that shelters them, they are all that stays. -/
theorem Shelters.close {outer : List Group} {below : List Nat} {p q : Preprocessor} {f : OpenFile}
    (h : Shelters outer below p) (hbases : p.bases = f.base :: q.bases)
    (hgroups : q.context.conditionals.groups = p.context.conditionals.groups.drop
      (p.context.conditionals.groups.length - f.base)) :
    Shelters outer below q ∨ q.bases = below ∧ q.context.conditionals.groups = outer := by
  have habove := h.above
  rw [hbases] at habove
  generalize hb : f.base = b at habove hgroups
  generalize hbs : q.bases = bs at habove
  cases habove with
  -- The file that shelters the groups is closed.
  | here =>
    refine .inr ⟨rfl, ?_⟩
    rw [hgroups]
    exact (List.suffix_iff_eq_drop.1 h.groups).symm
  -- A file on top of it is closed, which was opened on top of the groups, too.
  | there le more =>
    refine .inl ⟨by rw [hbs]; exact more, ?_⟩
    rw [hgroups]
    refine List.suffix_of_suffix_length_le h.groups (List.drop_suffix _ _) ?_
    have hle := h.groups.length_le
    rw [List.length_drop]
    omega

/-- A step keeps groups sheltered, unless it closes the file that shelters them; then they are what
is left. -/
theorem Shelters.advance {outer : List Group} {below : List Nat} {p q : Preprocessor}
    {out : List Token} (h : Shelters outer below p) (hstep : Advance p q out) :
    Shelters outer below q ∨ q.bases = below ∧ q.context.conditionals.groups = outer := by
  cases hstep with
  | main hfiles _ => exact absurd hfiles h.files_ne_nil
  | missing hfiles _ _ _ => exact absurd hfiles h.files_ne_nil
  | forced hfiles _ _ _ => exact absurd hfiles h.files_ne_nil
  | collect hfiles _ _ => exact .inl (h.of_eq (bases_of_files hfiles).symm rfl)
  | flush hfiles _ _ _ hout =>
    have hlooks := Context.looksOnly_expand _ _ _ hout
    exact .inl (h.of_eq (bases_of_files hfiles).symm hlooks.conditionals)
  | flushLast hfiles _ _ hout =>
    have hlooks := Context.looksOnly_expand _ _ _ hout
    exact .inl (h.of_eq (bases_of_files hfiles).symm hlooks.conditionals)
  | directive hfiles _ _ _ hdone =>
    -- The base of the innermost file is no less than the number of sheltered groups.
    have habove := h.above
    rw [bases_of_files hfiles] at habove
    exact .inl ⟨habove, (Context.guards_directive hdone).1 outer habove.le_head h.groups⟩
  | inclusion hfiles _ _ _ hdone hcontent =>
    refine .inl (Shelters.enter ?_ _ _)
    have hsame := (Context.guards_directive hdone).2 rfl
    exact h.of_eq (bases_of_files hfiles).symm
      ((Context.conditionals_of_including hcontent).trans hsame)
  | close hfiles _ _ _ hclose =>
    have hgroups := Context.groups_of_closeGroups hclose
    exact h.close (bases_of_files hfiles) hgroups
  | closeMain hfiles _ _ _ hclose =>
    have hgroups := Context.groups_of_closeGroups hclose
    exact h.close (bases_of_files hfiles) hgroups

/-- A file that is opened shelters the groups that are open. -/
theorem shelters_enter {p q : Preprocessor} {name : String} {content : Option (List Char)}
    (hbases : q.bases = p.bases) (hgroups : q.context.conditionals = p.context.conditionals)
    (hmore : q.files.length < (q.enter name content).files.length) :
    Shelters p.context.conditionals.groups p.bases (q.enter name content) := by
  cases content with
  | none => exact absurd hmore (Nat.lt_irrefl _)
  | some text =>
    rw [← hbases, ← hgroups]
    exact ⟨.here, List.suffix_refl _⟩

/-- A step after which more files are open has opened one, which shelters the groups that are
open. -/
theorem shelters_of_advance {p q : Preprocessor} {out : List Token} (h : Advance p q out)
    (hmore : p.files.length < q.files.length) :
    Shelters p.context.conditionals.groups p.bases q := by
  cases h with
  | main hfiles _ => exact shelters_enter rfl rfl hmore
  | missing => exact absurd hmore (Nat.lt_irrefl _)
  -- Looking for a header leaves the groups.
  | forced _ _ hfound hcontent =>
    have hsame := (Context.looksOnly_findHeader _ _ _ hfound).conditionals
    exact shelters_enter rfl ((Context.conditionals_of_including hcontent).trans hsame) hmore
  | collect hfiles => simp [hfiles] at hmore
  | flush hfiles => simp [hfiles] at hmore
  | flushLast hfiles => simp [hfiles] at hmore
  | directive hfiles => simp [hfiles] at hmore
  -- An inclusion is no conditional directive.
  | inclusion hfiles _ _ _ hdone hcontent =>
    have hsame := (Context.guards_directive hdone).2 rfl
    refine shelters_enter (bases_of_files hfiles).symm
      ((Context.conditionals_of_including hcontent).trans hsame) ?_
    rw [hfiles] at hmore
    exact hmore
  -- Closing a file makes the stack shorter.
  | @close f files c hfiles =>
    have hlt : p.files.length < files.length := hmore
    rw [hfiles, List.length_cons] at hlt
    omega
  | closeMain hfiles => exact absurd hmore (Nat.not_lt_zero _)

/-! ## Runs -/

/-- What can happen to a run between two of its tokens: a step, or, from outside, other definitions
or other files on the disk. -/
inductive Move : Preprocessor → Preprocessor → Prop
  | step {p q : Preprocessor} {out : List Token} (h : p.step = .more q out) : Move p q
  | outside (p : Preprocessor) (macros : MacroTable) (disk : Disk) :
      Move p { p with env := { p.env with disk }, context := { p.context with macros } }

/-- The run comes from `p` to `q`, and all the way more than `n` files are open. -/
inductive Within (n : Nat) (p : Preprocessor) : Preprocessor → Prop
  | start (more : n < p.files.length) : Within n p p
  | move {q r : Preprocessor} (before : Within n p q) (next : Move q r)
      (more : n < r.files.length) : Within n p r

/-- Groups stay sheltered for as long as more files are open than before the one that shelters
them. -/
theorem Shelters.within {outer : List Group} {below : List Nat} {p q : Preprocessor}
    (h : Shelters outer below p) (hrun : Within below.length p q) : Shelters outer below q := by
  induction hrun with
  | start => exact h
  | move before next more ih =>
    cases next with
    | step hstep =>
      cases ih.advance (advance_of_step hstep) with
      | inl hstays => exact hstays
      -- The file would have been closed, which is not within it.
      | inr hclosed =>
        rw [← length_bases, hclosed.1] at more
        omega
    | outside macros disk => exact ih.of_eq rfl rfl

/-- A file leaves the open groups as they were. Whatever step of a run opens it, as the main file or
by including it, and whatever it and the files that it includes contain: if it is closed and the run
goes on, the same groups are open, each in the same state, and the files that are open have the same
groups out of their reach. -/
theorem conditionals_restored {p q r s : Preprocessor} {out out' : List Token}
    (hopen : p.step = .more q out) (hmore : p.files.length < q.files.length)
    (hrun : Within p.files.length q r) (hclose : r.step = .more s out')
    (hback : s.files.length ≤ p.files.length) :
    s.context.conditionals = p.context.conditionals ∧ s.bases = p.bases := by
  have hstart := shelters_of_advance (advance_of_step hopen) hmore
  rw [← length_bases] at hrun
  cases (hstart.within hrun).advance (advance_of_step hclose) with
  -- The file is still open, but then the stack is too high.
  | inl hstays =>
    have hlength := hstays.above.length_lt
    rw [length_bases, length_bases] at hlength
    omega
  | inr hclosed =>
    obtain ⟨hbases, hgroups⟩ := hclosed
    refine ⟨?_, hbases⟩
    show (⟨s.context.conditionals.groups⟩ : Conditionals) = _
    rw [hgroups]

/-! ## A header with unmatched groups -/

namespace Unmatched

/-- A run on a file that includes a header inside a group of its own. The header closes a group that
it has not opened, and opens one that it does not close. -/
def start : Preprocessor :=
  { env := { config := {}, disk := .ofTexts [("b.h", "#endif\n#ifdef A")] }
    context := { macros := { macros := [] }, headers := {} }
    stage := .forced [] "a.c" "#ifndef A\n#include \"b.h\"".toList }

end Unmatched

/-- The header `b.h` is opened inside a group, reports two problems, and leaves the group. -/
theorem conditionals_restored_unmatched : ∃ (p q r s : Preprocessor) (out out' : List Token),
    p.step = .more q out ∧ p.files.length < q.files.length ∧ Within p.files.length q r ∧
      r.step = .more s out' ∧ s.files.length ≤ p.files.length ∧
      p.context.conditionals.depth = 1 ∧ s.context.diagnostics.length = 2 ∧
      s.context.conditionals = p.context.conditionals ∧ s.bases = p.bases := by
  -- One evaluation of all that is needed of these states.
  have hrun : (after? 2 Unmatched.start).any (fun p =>
      p.files.length = 1 ∧ p.context.conditionals.depth = 1 ∧
      (p.after? 1).any fun q => q.files.length = 2 ∧
      (q.after? 1).any fun q₁ => q₁.files.length = 2 ∧
      (q₁.after? 1).any fun r => r.files.length = 2 ∧
      (r.after? 1).any fun s => s.files.length = 1 ∧ s.context.diagnostics.length = 2) = true := by
    decide +kernel
  obtain ⟨p, -, hrun⟩ := (Option.any_eq_true _ _).1 hrun
  obtain ⟨hp, hdepth, hrun⟩ := of_decide_eq_true hrun
  obtain ⟨q, hopen, hrun⟩ := (Option.any_eq_true _ _).1 hrun
  obtain ⟨hq, hrun⟩ := of_decide_eq_true hrun
  obtain ⟨q₁, hendif, hrun⟩ := (Option.any_eq_true _ _).1 hrun
  obtain ⟨hq₁, hrun⟩ := of_decide_eq_true hrun
  obtain ⟨r, hifdef, hrun⟩ := (Option.any_eq_true _ _).1 hrun
  obtain ⟨hr, hrun⟩ := of_decide_eq_true hrun
  obtain ⟨s, hclose, hrun⟩ := (Option.any_eq_true _ _).1 hrun
  obtain ⟨hs, hproblems⟩ := of_decide_eq_true hrun
  obtain ⟨out, hopen⟩ := step_of_after?_one hopen
  obtain ⟨_, hendif⟩ := step_of_after?_one hendif
  obtain ⟨_, hifdef⟩ := step_of_after?_one hifdef
  obtain ⟨out', hclose⟩ := step_of_after?_one hclose
  have hmore : p.files.length < q.files.length := by omega
  have hback : s.files.length ≤ p.files.length := by omega
  have hwithin : Within p.files.length q r :=
    .move (.move (.start hmore) (.step hendif) (by omega)) (.step hifdef) (by omega)
  exact ⟨p, q, r, s, out, out', hopen, hmore, hwithin, hclose, hback, hdepth, hproblems,
    conditionals_restored hopen hmore hwithin hclose hback⟩

end Preprocessor

end Preproc
