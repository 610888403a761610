import Preproc.Proofs.Conditional.Marks
import Preproc.Proofs.Preprocessor.Once
import Preproc.Proofs.Preprocessor.Skipping

/-!
# Groups that do not match

A run that recovers reports each directive that continues or closes a group which is not open in its
file, and at the end of a file the groups that are still open. What is reported for a file follows
from the words of its directives alone (`imbalances`). It does not matter which conditions hold,
which code is skipped, which macros are defined, or what is in the files that it includes, although
these work on the same stack of groups.

`Stands f rest n p` is the invariant: in `p` the file `f` is open on top of `rest`, and `n` groups
are open that were opened in it. It may be the innermost file, or wait for those on top of it; then
its groups are sheltered.

## Key results

- `Stands.own`: what a step in a file reports and what is due after it was due before it
- `Stands.nested`: a step in a file on top of it changes nothing about it
- `Stands.processes`: what is reported for a file until its end is what is due in it
- `imbalances_reported`: what is reported for a file that is processed to its end
-/

namespace Preproc

/-- The problems with groups that are due in a file in which `n` groups are open. -/
def OpenFile.due (f : OpenFile) (n : Nat) : List Diagnostic :=
  imbalances f.name f.eof.line n (marks (f.lines.map (·.value)))

/-- What is due is due in the first line, or behind it. -/
private theorem OpenFile.due_of_lines {f : OpenFile} {line : Noted (List Token)}
    {lines : List (Noted (List Token))} (h : f.lines = line :: lines) (n : Nat) :
    f.due n = imbalances f.name f.eof.line n
      (marks [line.value] ++ marks (lines.map (·.value))) := by
  unfold due
  rw [h, List.map_cons, marks_cons]

/-- At the end of a file only open groups are left to be reported. -/
private theorem OpenFile.due_of_end {f : OpenFile} (h : f.lines = []) (n : Nat) :
    f.due n = imbalances f.name f.eof.line n [] := by
  unfold due
  rw [h]
  rfl

namespace Preprocessor

/-! ## Files that are processed to their end -/

/-- The problems with groups that are reported between two states of a run. -/
def reported (p q : Preprocessor) : List Diagnostic :=
  (q.context.diagnostics.drop p.context.diagnostics.length).filter fun d =>
    d.problem.topic = .conditional

/-- What was added is what is reported in between. -/
private theorem reported_of_adds {p q : Preprocessor} {ds : List Diagnostic}
    (h : Context.Adds ds p.context q.context) : reported p q = ds := by
  obtain ⟨new, hnew, rfl⟩ := h
  unfold reported
  rw [hnew, List.drop_left]

/-- The run comes from `p` to the end of the file on top of the `n` outermost ones. Of the problems
with groups, `ds` are reported by steps in this file, not in those that it includes. In between,
macros may be defined and files changed from outside. -/
inductive Processes (n : Nat) : Preprocessor → List Diagnostic → Preprocessor → Prop
  /-- The file is closed. -/
  | close {p q : Preprocessor} {out : List Token} (innermost : p.files.length = n + 1)
      (step : p.step = .more q out) (closed : q.files.length = n) :
      Processes n p (reported p q) q
  /-- A step in the file. -/
  | own {p q r : Preprocessor} {out : List Token} {ds : List Diagnostic}
      (innermost : p.files.length = n + 1) (step : p.step = .more q out)
      (still : n < q.files.length) (later : Processes n q ds r) :
      Processes n p (reported p q ++ ds) r
  /-- A step in a file that it includes, directly or through others. -/
  | nested {p q r : Preprocessor} {out : List Token} {ds : List Diagnostic}
      (deeper : n + 1 < p.files.length) (step : p.step = .more q out)
      (later : Processes n q ds r) : Processes n p ds r
  | outside {p r : Preprocessor} {ds : List Diagnostic} (macros : MacroTable) (disk : Disk)
      (later : Processes n
        { p with env := { p.env with disk }, context := { p.context with macros } } ds r) :
      Processes n p ds r

/-! ## The invariant -/

/-- The file `f` is open on top of the files `rest`, and of the open groups `n` were opened in
it. -/
inductive Stands (f : OpenFile) (rest : List OpenFile) (n : Nat) (p : Preprocessor) : Prop
  | innermost (hfiles : p.files = f :: rest)
      (hdepth : p.context.conditionals.depth = f.base + n)
  | below {outer : List Group} (hfiles : f :: rest <:+ p.files)
      (hshelters : Shelters outer ((f :: rest).map OpenFile.base) p)
      (hdepth : outer.length = f.base + n)

/-- If no file is on top of it, the file is the innermost one. -/
private theorem Stands.files_of_length {f : OpenFile} {rest : List OpenFile} {n : Nat}
    {p : Preprocessor} (h : Stands f rest n p) (hlength : p.files.length = rest.length + 1) :
    p.files = f :: rest ∧ p.context.conditionals.depth = f.base + n := by
  cases h with
  | innermost hfiles hdepth => exact ⟨hfiles, hdepth⟩
  | below _ hshelters _ =>
    have hlt := hshelters.above.length_lt
    rw [length_bases, List.length_map, List.length_cons] at hlt
    omega

/-- The file is open on top of the others. -/
theorem Stands.length_lt {f : OpenFile} {rest : List OpenFile} {n : Nat} {p : Preprocessor}
    (h : Stands f rest n p) : rest.length < p.files.length := by
  cases h with
  | innermost hfiles _ =>
    rw [hfiles]
    exact Nat.lt_succ_self _
  | below hfiles _ _ => exact hfiles.length_le

/-- A step leaves the files below the innermost one. -/
private theorem suffix_of_advance {p q : Preprocessor} {out : List Token} (h : Advance p q out)
    {f : OpenFile} {files : List OpenFile} (hfiles : p.files = f :: files) :
    files <:+ q.files := by
  -- The innermost file is the one that the step is about.
  have htop : ∀ {g : OpenFile} {gs : List OpenFile}, p.files = g :: gs → gs = files := by
    intro g gs hgs
    rw [hfiles] at hgs
    cases hgs
    rfl
  cases h with
  | main hnil => simp [hfiles] at hnil
  | missing hnil => simp [hfiles] at hnil
  | forced hnil => simp [hfiles] at hnil
  | collect hgs => exact htop hgs ▸ List.suffix_cons _ _
  | flush hgs => exact htop hgs ▸ List.suffix_cons _ _
  | flushLast hgs => exact htop hgs ▸ List.suffix_cons _ _
  | directive hgs => exact htop hgs ▸ List.suffix_cons _ _
  | @inclusion _ _ _ _ _ content _ _ hgs =>
    cases content with
    | none => exact htop hgs ▸ List.suffix_cons _ _
    | some text => exact htop hgs ▸ (List.suffix_cons _ _).trans (List.suffix_cons _ _)
  | close hgs => exact htop hgs ▸ List.suffix_refl _
  | closeMain hgs => exact htop hgs ▸ List.suffix_refl _

/-- A step in a file on top of `f` changes nothing about `f`. -/
theorem Stands.nested {f : OpenFile} {rest : List OpenFile} {n : Nat} {p q : Preprocessor}
    {out : List Token} (h : Stands f rest n p) (hdeeper : rest.length + 1 < p.files.length)
    (hstep : Advance p q out) : Stands f rest n q := by
  cases h with
  | innermost hfiles _ =>
    rw [hfiles, List.length_cons] at hdeeper
    omega
  | below hfiles hshelters hdepth =>
    cases htop : p.files with
    | nil => simp [htop] at hdeeper
    | cons g gs =>
      -- The innermost file is another one.
      have hbelow : f :: rest <:+ gs := by
        rw [htop] at hfiles hdeeper
        cases List.suffix_cons_iff.1 hfiles with
        | inl heq =>
          rw [← heq, List.length_cons] at hdeeper
          omega
        | inr htail => exact htail
      have hstill := hbelow.trans (suffix_of_advance hstep htop)
      cases hshelters.advance hstep with
      | inl hstays => exact .below hstill hstays hdepth
      -- The file on top has been closed, and the groups are as they were.
      | inr hback =>
        obtain ⟨hbases, hgroups⟩ := hback
        have hlength : (f :: rest).length = q.files.length := by
          rw [← length_bases, hbases, List.length_map]
        refine .innermost (hstill.eq_of_length hlength).symm ?_
        show q.context.conditionals.groups.length = _
        rw [hgroups, hdepth]

/-- What happens from outside changes neither files nor groups. -/
theorem Stands.outside {f : OpenFile} {rest : List OpenFile} {n : Nat} {p : Preprocessor}
    (h : Stands f rest n p) (macros : MacroTable) (disk : Disk) :
    Stands f rest n
      { p with env := { p.env with disk }, context := { p.context with macros } } := by
  cases h with
  | innermost hfiles hdepth => exact .innermost hfiles hdepth
  | below hfiles hshelters hdepth => exact .below hfiles (hshelters.of_eq rfl rfl) hdepth

/-- Opening a file reports nothing. -/
private theorem adds_enter {ds : List Diagnostic} {c : Context} {p : Preprocessor}
    (h : Context.Adds ds c p.context) (name : String) (content : Option (List Char)) :
    Context.Adds ds c (p.enter name content).context := by
  cases content with
  | none => exact h
  | some text => exact h

/-- A directive of the file `f` includes a file or fails to; in either case `f` stays open, and the
groups that were opened in it with it. -/
theorem Stands.enter {f : OpenFile} {rest : List OpenFile} {n : Nat} {p : Preprocessor}
    (h : Stands f rest n p) (hfiles : p.files = f :: rest) (name : String)
    (content : Option (List Char)) : Stands f rest n (p.enter name content) := by
  cases content with
  | none => exact h
  | some text =>
    -- The file stands below the one that is entered, with its groups sheltered.
    have hdepth := (h.files_of_length (by rw [hfiles]; rfl)).2
    refine .below ?_ ?_ hdepth
    · show f :: rest <:+ _ :: p.files
      rw [hfiles]
      exact List.suffix_cons _ _
    · have hshelters := @shelters_enter p p name (some text) rfl rfl (Nat.lt_succ_self _)
      rw [bases_of_files hfiles] at hshelters
      exact hshelters

/-- A step in the file `f` closes it, and reports what is due; or the file stays open, with fewer
lines or with a file on top of it, and what is reported now and what is due then was due before. -/
theorem Stands.own {f : OpenFile} {rest : List OpenFile} {n : Nat} {p q : Preprocessor}
    {out : List Token} (hrecovers : p.env.config.errorRecovery = true) (hhomed : f.Homed)
    (hfiles : p.files = f :: rest) (hdepth : p.context.conditionals.depth = f.base + n)
    (hstep : Advance p q out) :
    ∃ ds, Context.Adds ds p.context q.context ∧ (q.files = rest ∧ ds = f.due n ∨
      ∃ f' n', f'.Homed ∧ Stands f' rest n' q ∧ ds ++ f'.due n' = f.due n) := by
  -- The notes of a line are made before it is looked at.
  have hnoted : ∀ notes, (p.context.noting notes).conditionals.depth = f.base + n :=
    fun _ => hdepth
  cases hstep with
  | main hnil => simp [hfiles] at hnil
  | missing hnil => simp [hfiles] at hnil
  | forced hnil => simp [hfiles] at hnil
  -- A line of text has no mark.
  | collect hfiles' hlines htext =>
    cases hfiles.symm.trans hfiles'
    refine ⟨[], Context.adds_nil rfl, .inr ⟨_, n, hhomed.rest hlines _, .innermost rfl hdepth, ?_⟩⟩
    rw [OpenFile.due_of_lines hlines, marks_of_mark?_eq_none (mark?_of_text htext)]
    rfl
  -- What was collected is expanded, and the line is still there.
  | flush hfiles' hlines _ _ hout =>
    cases hfiles.symm.trans hfiles'
    have hsame := (Context.looksOnly_expand _ _ _ hout).conditionals
    have hquiet := (Context.keeps_expand _ _ _).mute hout
    refine ⟨[], hquiet, .inr ⟨_, n, hhomed.again hlines _, .innermost rfl ?_, ?_⟩⟩
    · exact (congrArg Conditionals.depth hsame).trans hdepth
    · unfold OpenFile.due
      rw [hlines]
      rfl
  | flushLast hfiles' hlines _ hout =>
    cases hfiles.symm.trans hfiles'
    have hsame := (Context.looksOnly_expand _ _ _ hout).conditionals
    have hquiet := (Context.keeps_expand _ _ _).mute hout
    have hnone : ({ f with lines := [], pending := [] } : OpenFile).Homed := fun l hl => nomatch hl
    refine ⟨[], hquiet, .inr ⟨_, n, hnone, .innermost rfl ?_, ?_⟩⟩
    · exact (congrArg Conditionals.depth hsame).trans hdepth
    · rw [OpenFile.due_of_end hlines]
      exact OpenFile.due_of_end rfl n
  -- The directive settles its own mark.
  | directive hfiles' hlines hhash _ hdone =>
    cases hfiles.symm.trans hfiles'
    obtain ⟨ds, n', hadds, hdepth', hdue⟩ := Context.settles_directive hrecovers
      (hhomed.file_of_hash hlines hhash) (hnoted _) hdone
    refine ⟨ds, hadds, .inr ⟨_, n', hhomed.rest hlines _, .innermost rfl hdepth', ?_⟩⟩
    rw [OpenFile.due_of_lines hlines, ← hdue]
    rfl
  -- The directive is settled likewise, and the file waits for the one that it includes.
  | inclusion hfiles' hlines hhash _ hdone hcontent =>
    cases hfiles.symm.trans hfiles'
    obtain ⟨ds, n', hadds, hdepth', hdue⟩ := Context.settles_directive hrecovers
      (hhomed.file_of_hash hlines hhash) (hnoted _) hdone
    have hadds' := hadds.trans (Context.mute_including _ _ _ hcontent)
    rw [List.append_nil] at hadds'
    have hsame := Context.conditionals_of_including hcontent
    refine ⟨ds, adds_enter hadds' _ _,
      .inr ⟨_, n', hhomed.rest hlines _, Stands.enter (.innermost rfl ?_) rfl _ _, ?_⟩⟩
    · exact (congrArg Conditionals.depth hsame).trans hdepth'
    · rw [OpenFile.due_of_lines hlines, ← hdue]
      rfl
  -- All lines are done, so what is due is the report on groups that are left open.
  | close hfiles' hlines _ _ hclose =>
    cases hfiles.symm.trans hfiles'
    have hadds := Context.adds_closeGroups hrecovers (hnoted _) hclose
    exact ⟨_, hadds, .inl ⟨rfl, (OpenFile.due_of_end hlines n).symm⟩⟩
  | closeMain hfiles' hlines _ _ hclose =>
    cases hfiles.symm.trans hfiles'
    have hadds := Context.adds_closeGroups hrecovers (hnoted _) hclose
    exact ⟨_, hadds, .inl ⟨rfl, (OpenFile.due_of_end hlines n).symm⟩⟩

/-- What is reported for a file until its end is what is due in it. -/
theorem Stands.processes {f : OpenFile} {rest : List OpenFile} {n : Nat} {p r : Preprocessor}
    {ds : List Diagnostic} (hrecovers : p.env.config.errorRecovery = true) (hhomed : f.Homed)
    (h : Stands f rest n p) (hrun : Processes rest.length p ds r) : ds = f.due n := by
  induction hrun generalizing f n with
  -- The last step of the file closes it, and reports the groups that are left.
  | close innermost step closed =>
    obtain ⟨hfiles, hdepth⟩ := h.files_of_length innermost
    obtain ⟨ds, hadds, hclosed | ⟨f', n', -, hstands, -⟩⟩ :=
      Stands.own hrecovers hhomed hfiles hdepth (advance_of_step step)
    · rw [reported_of_adds hadds, hclosed.2]
    · have hlt := hstands.length_lt
      omega
  -- A step of the file itself, by which what is due is reduced.
  | own innermost step still later ih =>
    have hadvance := advance_of_step step
    obtain ⟨hfiles, hdepth⟩ := h.files_of_length innermost
    obtain ⟨ds, hadds, hclosed | ⟨f', n', hhomed', hstands, hdue⟩⟩ :=
      Stands.own hrecovers hhomed hfiles hdepth hadvance
    · rw [hclosed.1] at still
      omega
    · rw [reported_of_adds hadds, ih (env_of_advance hadvance ▸ hrecovers) hhomed' hstands, hdue]
  -- A step of a file that it includes does not touch its groups.
  | nested deeper step later ih =>
    have hadvance := advance_of_step step
    exact ih (env_of_advance hadvance ▸ hrecovers) hhomed (h.nested deeper hadvance)
  | outside macros disk later ih => exact ih hrecovers hhomed (h.outside macros disk)

/-! ## What is reported for a file -/

/-- The next step may open the file `name` with the given text: the main file, or a file that is
found, whose text is on the disk. -/
inductive Opens (p : Preprocessor) : String → List Char → Prop
  | main {file : String} {text : List Char} (hfiles : p.files = [])
      (hstage : p.stage = .forced [] file text) : Opens p file text
  | included {i : Inclusion} {p' : Preprocessor} {text : List Char} (hfound : Finds p i p')
      (hread : p.env.disk.read p.env.config.charset i.path = .ok text) : Opens p i.path text

/-- A file that has just been opened has all its lines left, and no group was opened in it. -/
private theorem opens_of_advance {p q : Preprocessor} {out : List Token} (h : Advance p q out)
    (hmore : p.files.length < q.files.length) :
    ∃ name text rest, Opens p name text ∧ rest.length = p.files.length ∧
      q.files = (OpenFile.ofText name text p.context.conditionals.depth).value :: rest ∧
      q.context.conditionals.depth = p.context.conditionals.depth := by
  by_cases hmain : p.StartsMain
  · -- The main file is opened when no other file is.
    obtain ⟨hfiles, file, text, hstage⟩ := hmain
    cases h with
    | main _ hstage' =>
      cases hstage.symm.trans hstage'
      exact ⟨file, text, p.files, .main hfiles hstage, rfl, rfl, rfl⟩
    | missing _ hstage' => cases hstage.symm.trans hstage'
    | forced _ hstage' => cases hstage.symm.trans hstage'
    | collect hfiles' => cases hfiles.symm.trans hfiles'
    | flush hfiles' => cases hfiles.symm.trans hfiles'
    | flushLast hfiles' => cases hfiles.symm.trans hfiles'
    | directive hfiles' => cases hfiles.symm.trans hfiles'
    | inclusion hfiles' => cases hfiles.symm.trans hfiles'
    | close hfiles' => cases hfiles.symm.trans hfiles'
    | closeMain hfiles' => cases hfiles.symm.trans hfiles'
  · -- All other files are included, which leaves the conditional groups.
    obtain ⟨i, p', text, c, hfinds, hcontent, rfl⟩ := exists_finds_of_opens h hmore hmain
    have hread := (Context.of_including_some hcontent).2.2
    have hsame : c.conditionals = p.context.conditionals :=
      (Context.conditionals_of_including hcontent).trans hfinds.looked.alike.conditionals
    refine ⟨i.path, text, p'.files, .included hfinds hread, hfinds.looked.length_files, ?_, ?_⟩
    · rw [← hsame]
      rfl
    · rw [← hsame]
      rfl

/-- What a run that recovers reports about the groups of a file follows from the marks of its lines.
Whatever step opens the file, as the main file or by including it, if it is processed to its end,
the problems with groups that are reported by it are, in this order, those of the marks that
continue or close a group while none is open in the file, and at its last line that of the groups
that are still open. -/
theorem imbalances_reported {p q r : Preprocessor} {out : List Token} {ds : List Diagnostic}
    (hrecovers : p.env.config.errorRecovery = true) (hopen : p.step = .more q out)
    (hmore : p.files.length < q.files.length) (hrun : Processes p.files.length q ds r) :
    ∃ name text, Opens p name text ∧
      q.files.head? = some (OpenFile.ofText name text p.context.conditionals.depth).value ∧
      ds = imbalances name (endToken name text).line 0 (marks (lineTokens name text)) := by
  have hadvance := advance_of_step hopen
  obtain ⟨name, text, rest, hopens, hlength, hfiles, hdepth⟩ := opens_of_advance hadvance hmore
  -- The file is the innermost one when it has been opened, and none of its lines has been taken.
  rw [← hlength] at hrun
  refine ⟨name, text, hopens, by rw [hfiles]; rfl, ?_⟩
  exact Stands.processes (env_of_advance hadvance ▸ hrecovers) (OpenFile.homed_ofText name text _)
    (.innermost hfiles hdepth) hrun

/-! ## A file with unmatched groups that includes another -/

/-- The problems with groups that are reported by steps in the file on top of the `n` outermost
ones, if it is closed within so many steps. -/
def processed? (n : Nat) : Nat → Preprocessor → Option (List Diagnostic)
  | 0, _ => none
  | steps + 1, p =>
    match p.step with
    | .more q _ =>
      if p.files.length = n + 1 then
        if q.files.length = n then some (reported p q)
        else if n < q.files.length then (reported p q ++ ·) <$> processed? n steps q
        else none
      else if n + 1 < p.files.length then processed? n steps q
      else none
    | _ => none

/-- A run that can be computed to the end of a file comes to it. -/
private theorem processes_of_processed? {n steps : Nat} {p : Preprocessor} {ds : List Diagnostic}
    (h : processed? n steps p = some ds) : ∃ r, Processes n p ds r := by
  induction steps generalizing p ds with
  | zero => cases h
  | succ steps ih =>
    unfold processed? at h
    split at h
    · rename_i q out hstep
      split at h
      · -- The step is one of the file itself, and may be its last.
        rename_i hinnermost
        split at h
        · rename_i hclosed
          cases h
          exact ⟨q, .close hinnermost hstep hclosed⟩
        · split at h
          · rename_i hstill
            obtain ⟨later, hlater, rfl⟩ := Option.map_eq_some_iff.1 h
            obtain ⟨r, hr⟩ := ih hlater
            exact ⟨r, .own hinnermost hstep hstill hr⟩
          · cases h
      · split at h
        · -- It is one of an included file.
          rename_i hdeeper
          obtain ⟨r, hr⟩ := ih h
          exact ⟨r, .nested hdeeper hstep hr⟩
        · cases h
    · cases h

namespace Unmatched

/-- A text with unmatched groups, some of them skipped, that includes a header with others. -/
def text : List Char :=
  ("#else\n#if 0\n#ifdef A\n#elif (\n#include \"b.h\"\n#endif\n" ++
    "#else\n#include \"b.h\"\n#else\n#endif\n#endif\n#if 1").toList

/-- A run on the text. -/
def begun : Preprocessor :=
  { start with stage := .forced [] "a.c" text }

/-- The problems that are reported for the text. -/
def problems : List Diagnostic :=
  [⟨"a.c", 1, .withoutIf "else"⟩, ⟨"a.c", 11, .withoutIf "endif"⟩, ⟨"a.c", 12, .unterminated 1⟩]

end Unmatched

open Unmatched in
/-- The first line of the text has no group to continue, its last `#endif` no group to close, and
its last line opens a group that stays open. What the header reports in between is not among it. -/
theorem imbalances_reported_unmatched : ∃ (q r : Preprocessor) (out : List Token)
    (name : String) (file : List Char),
    begun.env.config.errorRecovery = true ∧ begun.step = .more q out ∧
      begun.files.length < q.files.length ∧ Processes begun.files.length q problems r ∧
      Opens begun name file ∧
      q.files.head? = some (OpenFile.ofText name file begun.context.conditionals.depth).value ∧
      problems = imbalances name (endToken name file).line 0 (marks (lineTokens name file)) := by
  -- The first step opens the file, and at most twenty more process it.
  have hrun : (begun.after? 1).any (fun q =>
      q.files.length = 1 ∧ processed? 0 20 q = some problems) = true := by
    decide +kernel
  obtain ⟨q, hq, hrun⟩ := (Option.any_eq_true _ _).1 hrun
  obtain ⟨hlength, hreports⟩ := of_decide_eq_true hrun
  obtain ⟨out, hstep⟩ := step_of_after?_one hq
  obtain ⟨r, hprocesses⟩ := processes_of_processed? hreports
  have hmore : begun.files.length < q.files.length := by
    rw [hlength]
    exact Nat.zero_lt_one
  obtain ⟨name, file, hresult⟩ := imbalances_reported rfl hstep hmore hprocesses
  exact ⟨q, r, out, name, file, rfl, hstep, hmore, hprocesses, hresult⟩

end Preprocessor

end Preproc
