import Preproc.Proofs.Preprocessor.Inclusions
import Preproc.Proofs.Preprocessor.Output

/-!
# Files that are included once

A file is not included again after a pragma in it has asked for that, or after an import of it. The
pragma goes by the name that the tokens of its line carry, the import by the path at which the file
was found, and the question whether a file is passed over by the path at which it is found then. All
three are the one name of the file: the tokens of a file carry its name as long as it is open
(`Homed`), and a path is made canonical before it is remembered or looked up.

What is remembered changes in these two ways only (`mem_once_iff`), and nothing is ever forgotten.

## Key results

- `Homed.advance`: a step leaves every token in its file
- `mem_once_iff`: which files a step lets not be included again
- `once_passed_over`: such a file is passed over from then on
-/

namespace Preproc

/-! ## Tokens and their files -/

/-- All tokens of the lines that are left in a file carry its name. -/
def OpenFile.Homed (f : OpenFile) : Prop :=
  ∀ line ∈ f.lines, ∀ t ∈ line.value, t.file = f.name

/-- The tokens of a file that has just been opened are from that file. -/
theorem OpenFile.homed_ofText (name : String) (text : List Char) (base : Nat) :
    (OpenFile.ofText name text base).value.Homed := by
  intro line hline t ht
  cases Lexed.mem_of_mem_groupLines hline ht with
  | inl hmem => cases hmem
  | inr hmem =>
    obtain ⟨u, hu, rfl⟩ := List.mem_map.1 hmem
    -- A token carries the name of the file that it is read from.
    obtain hnone | ⟨c, x, hfile, htaken⟩ := Cursor.exists_take_of_mem_tokens _ [] hu
    · cases hnone
    · rw [htaken]
      exact hfile

/-- A line that is taken leaves the others in their file. -/
theorem OpenFile.Homed.rest {f : OpenFile} (h : f.Homed) {line : Noted (List Token)}
    {lines : List (Noted (List Token))} (hlines : f.lines = line :: lines) (pending : List Token) :
    ({ f with lines, pending } : OpenFile).Homed :=
  fun l hl => h l (hlines ▸ List.mem_cons_of_mem line hl)

/-- A line that comes again, without its notes, stays in its file. -/
theorem OpenFile.Homed.again {f : OpenFile} (h : f.Homed) {line : Noted (List Token)}
    {lines : List (Noted (List Token))} (hlines : f.lines = line :: lines) (pending : List Token) :
    ({ f with lines := pure line.value :: lines, pending } : OpenFile).Homed :=
  List.forall_mem_cons.2 ⟨h line (hlines ▸ List.mem_cons_self), h.rest hlines pending⟩

/-- The first token of a line that starts with `#` tells the name of the file. -/
theorem OpenFile.Homed.file_of_hash {f : OpenFile} (h : f.Homed) {line : Noted (List Token)}
    {lines : List (Noted (List Token))} (hlines : f.lines = line :: lines)
    (hhash : line.value.head?.any Token.isHash = true) :
    line.value.head?.elim "" (·.file) = f.name := by
  cases hline : line.value with
  | nil => simp [hline] at hhash
  | cons t ts => exact h line (hlines ▸ List.mem_cons_self) t (hline ▸ List.mem_cons_self)

namespace Preprocessor

/-- All tokens that are left in the open files carry the names of these. -/
def Homed (p : Preprocessor) : Prop :=
  ∀ f ∈ p.files, f.Homed

/-- What holds of all open files holds of the innermost and of the others. -/
theorem Homed.top {p : Preprocessor} (h : p.Homed) {f : OpenFile} {files : List OpenFile}
    (hfiles : p.files = f :: files) : f.Homed ∧ ∀ g ∈ files, g.Homed :=
  List.forall_mem_cons.1 (hfiles ▸ h)

/-- Opening a file leaves every token in its file. -/
theorem Homed.enter {p : Preprocessor} (h : p.Homed) (name : String)
    (content : Option (List Char)) : (p.enter name content).Homed := by
  cases content with
  | none => exact h
  | some text => exact List.forall_mem_cons.2 ⟨OpenFile.homed_ofText name text _, h⟩

/-- A step leaves every token in its file. -/
theorem Homed.advance {p q : Preprocessor} {out : List Token} (h : p.Homed)
    (hstep : Advance p q out) : q.Homed := by
  cases hstep with
  | main =>
    apply Homed.enter
    exact h
  | missing => exact h
  | forced =>
    apply Homed.enter
    exact h
  -- Lines are only taken away from the innermost file.
  | collect hfiles hlines =>
    obtain ⟨hf, hfiles'⟩ := h.top hfiles
    exact List.forall_mem_cons.2 ⟨hf.rest hlines _, hfiles'⟩
  | flush hfiles hlines =>
    obtain ⟨hf, hfiles'⟩ := h.top hfiles
    exact List.forall_mem_cons.2 ⟨hf.again hlines _, hfiles'⟩
  -- It has no line left.
  | flushLast hfiles =>
    obtain ⟨-, hfiles'⟩ := h.top hfiles
    exact List.forall_mem_cons.2 ⟨(fun l hl => nomatch hl), hfiles'⟩
  | directive hfiles hlines =>
    obtain ⟨hf, hfiles'⟩ := h.top hfiles
    exact List.forall_mem_cons.2 ⟨hf.rest hlines _, hfiles'⟩
  | inclusion hfiles hlines =>
    obtain ⟨hf, hfiles'⟩ := h.top hfiles
    apply Homed.enter
    exact List.forall_mem_cons.2 ⟨hf.rest hlines _, hfiles'⟩
  | close hfiles => exact (h.top hfiles).2
  | closeMain => exact fun f hf => nomatch hf

/-- Whatever happens in a run leaves every token in its file. -/
theorem Homed.move {p q : Preprocessor} (hmove : Move p q) (h : p.Homed) : q.Homed := by
  cases hmove with
  | step hstep => exact h.advance (advance_of_step hstep)
  | outside => exact h

/-- The directive that is carried out stands in the innermost file. -/
private theorem Homed.file_of_handled {p : Preprocessor} (h : p.Homed) {f : OpenFile}
    {files : List OpenFile} (hfiles : p.files = f :: files) {d : DirectiveLine}
    (hd : p.handled? = some d) : d.file = f.name := by
  obtain ⟨g, rest, line, lines, hfiles', hlines, hhash, -, hheeded⟩ := of_handled hd
  rw [hfiles] at hfiles'
  cases hfiles'
  unfold DirectiveLine.file
  rw [Context.tokens_of_heeded hheeded]
  exact (h.top hfiles).1.file_of_hash hlines hhash

/-! ## What is remembered -/

/-- The next step lets the file `n` not be included again: it carries out a pragma that asks for it,
or finds the file for an import. -/
inductive Sets (p : Preprocessor) : String → Prop
  | pragma {d : DirectiveLine} (hd : p.handled? = some d)
      (honce : d.directive.isPragmaOnce = true) :
      Sets p (Context.canonicalName p.env d.file)
  | imported {i : Inclusion} {p' : Preprocessor} (hfound : p.sought? = some (i, p'))
      (honce : i.once = true) : Sets p (Context.canonicalName p.env i.path)

/-- Opening a file does not say what to include once. -/
private theorem once_enter (p : Preprocessor) (name : String) (content : Option (List Char)) :
    (p.enter name content).context.once = p.context.once := by
  cases content with
  | none => rfl
  | some text => rfl

/-- Entering a file remembers it if it is an import. -/
theorem once_of_entering (env : Environment) (i : Inclusion) (c : Context) :
    (Context.entering env i c).once =
      if i.once then Context.canonicalName env i.path :: c.once else c.once := by
  unfold Context.entering
  split <;> rfl

/-- Including a file remembers it, if it is an import and the file is not passed over. -/
private theorem once_of_including {env : Environment} {opened : Nat} {i : Inclusion}
    {c c' : Context} {content : Option (List Char)}
    (h : Context.including env opened i c = .ok content c') :
    c'.once = if i.once && !Context.isOnce env i.path c then
      Context.canonicalName env i.path :: c.once else c.once := by
  cases honce : Context.isOnce env i.path c with
  | true =>
    rw [Context.including_of_isOnce honce] at h
    cases h
    simp
  -- The file is marked before it is read.
  | false =>
    rw [Context.including_of_not_isOnce honce] at h
    rw [(Context.looksOnly_reading _ _ _ h).once, once_of_entering]
    simp

/-- A step forgets no file, and remembers those that it sets. -/
private theorem exists_once_of_advance {p q : Preprocessor} {out : List Token}
    (h : Advance p q out) :
    ∃ added, q.context.once = added ++ p.context.once ∧ ∀ n ∈ added, Sets p n := by
  -- Most steps remember nothing new.
  have hsame : q.context.once = p.context.once →
      ∃ added, q.context.once = added ++ p.context.once ∧ ∀ n ∈ added, Sets p n :=
    fun heq => ⟨[], heq, fun n hn => nomatch hn⟩
  have hadds : ∀ {n : String}, Sets p n → q.context.once = n :: p.context.once →
      ∃ added, q.context.once = added ++ p.context.once ∧ ∀ n ∈ added, Sets p n := by
    intro n hsets heq
    refine ⟨[n], heq, fun m hm => ?_⟩
    rw [List.mem_singleton.1 hm]
    exact hsets
  -- A file that is found is remembered if it is an import.
  have hfinds : ∀ {i : Inclusion} {p' : Preprocessor} {content : Option (List Char)} {c : Context},
      Finds p i p' → Context.including p'.env p'.files.length i p'.context = .ok content c →
      q.context.once = c.once →
      ∃ added, q.context.once = added ++ p.context.once ∧ ∀ n ∈ added, Sets p n := by
    intro i p' content c hfound hcontent heq
    have honce := once_of_including hcontent
    rw [hfound.looked.env, hfound.looked.alike.once] at honce
    by_cases hmarks : (i.once && !Context.isOnce p.env i.path p'.context) = true
    · rw [if_pos hmarks] at honce
      exact hadds (.imported (sought?_eq_some_iff.2 hfound) (Bool.and_eq_true_iff.1 hmarks).1)
        (heq.trans honce)
    · rw [if_neg hmarks] at honce
      exact hsame (heq.trans honce)
  cases h with
  | main => exact hsame rfl
  | missing hfiles hstage hfound hreport =>
    have hlooks := (Context.looksOnly_findHeader _ _ _ hfound).trans
      (Context.looksOnly_missingHeader _ _ _ hreport)
    exact hsame hlooks.once
  | @forced header rest file path text content c c' hfiles hstage hfound hcontent =>
    have hlength : p.files.length = 0 := by rw [hfiles]; rfl
    refine @hfinds _ _ content c' (.forced hfiles hstage hfound) ?_ (once_enter _ _ _)
    show Context.including p.env p.files.length _ c = _
    rw [hlength]
    exact hcontent
  | collect => exact hsame rfl
  | flush _ _ _ _ hout => exact hsame (Context.looksOnly_expand _ _ _ hout).once
  | flushLast _ _ _ hout => exact hsame (Context.looksOnly_expand _ _ _ hout).once
  -- A directive that asks for no file may be a pragma.
  | @directive f files line lines c hfiles hlines hhash hpending hdone =>
    cases hd : p.context.heeded? line.value with
    | none =>
      obtain ⟨notes, hnone⟩ :=
        @Context.directive_of_unheeded (p.context.noting line.notes) line.value hd p.env f.base
      rw [hnone] at hdone
      cases hdone
      exact hsame rfl
    | some d =>
      have hhandled := (handled?_eq hfiles hlines hhash hpending).trans hd
      rw [@Context.directive_of_heeded (p.context.noting line.notes) _ _ hd] at hdone
      have honce := Context.once_of_carryOut hdone
      by_cases hpragma : d.directive.isPragmaOnce = true
      · rw [if_pos hpragma] at honce
        exact hadds (.pragma hhandled hpragma) honce
      · rw [if_neg hpragma] at honce
        exact hsame honce
  | @inclusion f files line lines i content c c' hfiles hlines hhash hpending hdone hcontent =>
    exact hfinds (.directive hfiles hlines hhash hpending hdone) hcontent (once_enter _ _ _)
  | close _ _ _ _ hclose =>
    have honce := Context.keeps_once_closeGroups _ _ _ _ hclose
    exact hsame honce
  | closeMain _ _ _ _ hclose =>
    have honce := Context.keeps_once_closeGroups _ _ _ _ hclose
    exact hsame honce

/-- A file that the next step sets is remembered after it. -/
private theorem Sets.mem_once {p q : Preprocessor} {out : List Token} {n : String} (h : Sets p n)
    (hstep : p.step = .more q out) : n ∈ q.context.once := by
  cases h with
  | @pragma d hd honce =>
    obtain ⟨f, files, line, lines, hfiles, hlines, hhash, hpending, hheeded⟩ := of_handled hd
    have hdirective :=
      @Context.directive_of_heeded (p.context.noting line.notes) _ _ hheeded p.env f.base
    cases hdone : Context.directive p.env f.base line.value (p.context.noting line.notes) with
    | error e c =>
      rw [step_of_directive_error hfiles hlines hhash hpending hdone] at hstep
      cases hstep
    | ok wanted c =>
      rw [hdirective] at hdone
      have hmem := Context.once_of_carryOut hdone
      rw [if_pos honce] at hmem
      cases wanted with
      | none =>
        rw [← hdirective] at hdone
        rw [step_of_directive_none hfiles hlines hhash hpending hdone] at hstep
        cases hstep
        show _ ∈ c.once
        rw [hmem]
        exact List.mem_cons_self
      | some i =>
        -- A pragma asks for no file.
        obtain ⟨target, once, hinclusion, -⟩ := Context.inclusion?_of_carryOut hdone
        rw [hinclusion] at honce
        cases honce
  -- The file was remembered before, or it is entered now.
  | @imported i p' hfound honce =>
    have hfinds := sought?_eq_some_iff.1 hfound
    cases hisOnce : Context.isOnce p.env i.path p.context with
    | true =>
      rw [hfinds.step_of_isOnce hisOnce] at hstep
      cases hstep
      rw [hfinds.looked.alike.once]
      exact Context.isOnce_iff.1 hisOnce
    | false =>
      rw [hfinds.step_of_not_isOnce hisOnce] at hstep
      obtain ⟨content, c, hread, hstep⟩ := of_doing hstep
      have hc : c.once = Context.canonicalName p.env i.path :: p'.context.once := by
        rw [(Context.looksOnly_reading _ _ _ hread).once]
        show (Context.entering p.env i p'.context).once = _
        rw [once_of_entering, if_pos honce]
      cases hstep
      rw [once_enter]
      show _ ∈ c.once
      rw [hc]
      exact List.mem_cons_self

/-- The files that are remembered after a step are those that were, and those that it sets. -/
theorem mem_once_iff {p q : Preprocessor} {out : List Token} (hstep : p.step = .more q out)
    (n : String) : n ∈ q.context.once ↔ n ∈ p.context.once ∨ Sets p n := by
  obtain ⟨added, honce, hadded⟩ := exists_once_of_advance (advance_of_step hstep)
  constructor
  · intro hn
    rw [honce] at hn
    exact (List.mem_append.1 hn).symm.imp id (hadded n)
  · rintro (hn | hsets)
    · rw [honce]
      exact List.mem_append_right _ hn
    · exact hsets.mem_once hstep

/-- Nothing is ever forgotten. -/
private theorem mem_once_of_moves {p q : Preprocessor} (h : Moves p q) {n : String}
    (hn : n ∈ p.context.once) : n ∈ q.context.once := by
  refine h.keeps (fun r => n ∈ r.context.once) ?_ hn
  intro r s hmove hr
  cases hmove with
  | step hstep => exact (mem_once_iff hstep n).2 (.inl hr)
  | outside => exact hr

/-! ## Passing files over -/

/-- The step from `p` to `q` is the last moment at which the file `n` may be included: a pragma in
the file asks for it, or an import starts to process the file. -/
inductive Retires (p q : Preprocessor) : String → Prop
  | pragma {f : OpenFile} {files : List OpenFile} {d : DirectiveLine}
      (hfiles : p.files = f :: files)
      (hd : p.handled? = some d) (honce : d.directive.isPragmaOnce = true) :
      Retires p q (Context.canonicalName p.env f.name)
  | imported {i : Inclusion} {p' : Preprocessor} (hfound : p.sought? = some (i, p'))
      (honce : i.once = true) (hopens : p.files.length < q.files.length) :
      Retires p q (Context.canonicalName p.env i.path)

/-- A file that retires is remembered, since the tokens of a pragma carry its name. -/
theorem Retires.sets {p q : Preprocessor} {n : String} (h : Retires p q n) (hp : p.Homed) :
    Sets p n := by
  cases h with
  | pragma hfiles hd honce =>
    rw [← hp.file_of_handled hfiles hd]
    exact .pragma hd honce
  | imported hfound honce _ => exact .imported hfound honce

/-- A run starts without open files. -/
private theorem homed_of_start {config : Config} {disk : Disk} {now : Clock} {nesting : Nat}
    {file : String} {text : List Char} {p : Preprocessor}
    (h : (ofConfig config disk now nesting).start file text = .ok p) : p.Homed := by
  cases h
  exact fun f hf => nomatch hf

/-- Once means once. In every run, from the moment at which a pragma in a file asks for it, or an
`#import` starts to process the file, every step that finds this file passes it over: the run goes
on with the next line and nothing else, and gives no tokens. So no file that is opened later, the
main file apart, is this one, however deep it is asked for and even while it is still open. -/
theorem once_passed_over {config : Config} {disk : Disk} {now : Clock} {nesting : Nat}
    {file : String} {text : List Char} {start p q r : Preprocessor} {out : List Token} {n : String}
    (hstart : (ofConfig config disk now nesting).start file text = .ok start) (hp : Moves start p)
    (hstep : p.step = .more q out) (hretires : Retires p q n) (hlater : Moves q r) :
    (∀ i r', r.sought? = some (i, r') → Context.canonicalName r.env i.path = n →
      r.step = .more r' [] ∧ Looked r r') ∧
    ∀ s out', r.step = .more s out' → r.files.length < s.files.length → ¬r.StartsMain →
      ∃ g, s.files.head? = some g ∧ Context.canonicalName r.env g.name ≠ n := by
  have hhomed : p.Homed := hp.keeps Homed Homed.move (homed_of_start hstart)
  -- The file is remembered after the step, and from then on.
  have hmem : n ∈ r.context.once :=
    mem_once_of_moves hlater ((hretires.sets hhomed).mem_once hstep)
  have honce : ∀ path, Context.canonicalName r.env path = n →
      Context.isOnce r.env path r.context = true := by
    intro path hpath
    rw [Context.isOnce_iff, hpath]
    exact hmem
  constructor
  · intro i r' hfound hpath
    have hfinds := sought?_eq_some_iff.1 hfound
    exact ⟨hfinds.step_of_isOnce (honce i.path hpath), hfinds.looked⟩
  · intro s out' hnext hmore hmain
    obtain ⟨i, r', content, c, hfinds, hcontent, rfl⟩ :=
      exists_finds_of_opens (advance_of_step hnext) hmore hmain
    refine ⟨_, rfl, fun hpath => ?_⟩
    -- A file with a text to be processed was not passed over.
    have hnot := (Context.of_including_some hcontent).1
    rw [Context.isOnce_congr hfinds.looked.alike.once, honce i.path hpath] at hnot
    cases hnot

/-! ## A header that includes itself -/

namespace Recursive

/-- A disk with a header that asks to be included only once, and then for itself. -/
def disk : Disk :=
  .ofTexts [("b.h", "#pragma once\n#include \"b.h\"\nx")]

/-- A text that includes the header by two paths. -/
def text : List Char :=
  "#include \"b.h\"\n#include \"./b.h\"".toList

/-- The run on the text. -/
def begun : Preprocessor :=
  { ofConfig {} disk .sample with stage := .forced [] "a.c" text }

/-- The next step finds the header. -/
def finds (p : Preprocessor) : Bool :=
  p.sought?.any fun (i, _) => Context.canonicalName p.env i.path = "/b.h"

/-- A test that was passed tells which file is found. -/
theorem exists_sought {p : Preprocessor} (h : finds p = true) :
    ∃ i p', p.sought? = some (i, p') ∧ Context.canonicalName p.env i.path = "/b.h" := by
  obtain ⟨⟨i, p'⟩, hfound, hpath⟩ := (Option.any_eq_true _ _).1 h
  exact ⟨i, p', hfound, of_decide_eq_true hpath⟩

end Recursive

open Recursive in
/-- The header `b.h` is passed over while it is open, and when it is asked for again. -/
theorem once_passed_over_recursive : ∃ (p q r s r' s' : Preprocessor) (out : List Token)
    (i j : Inclusion), (ofConfig {} disk .sample).start "a.c" text = .ok begun ∧
      Moves begun p ∧ p.step = .more q out ∧ Retires p q "/b.h" ∧ Moves q r ∧ Moves q s ∧
      (r.files.length = 2 ∧ r.sought? = some (i, r') ∧ r.step = .more r' []) ∧
      s.files.length = 1 ∧ s.sought? = some (j, s') ∧ s.step = .more s' [] := by
  -- One evaluation of all that is needed of these states.
  have hrun : (begun.after? 2).any (fun p =>
      p.handled?.any (·.directive.isPragmaOnce) ∧
      p.files.head?.any (fun f => Context.canonicalName p.env f.name = "/b.h") ∧
      (p.after? 1).any fun q => q.files.length = 2 ∧ finds q ∧
        (q.after? 4).any fun s => s.files.length = 1 ∧ finds s) = true := by
    decide +kernel
  obtain ⟨p, hp, hrun⟩ := (Option.any_eq_true _ _).1 hrun
  obtain ⟨hpragma, hname, hrun⟩ := of_decide_eq_true hrun
  obtain ⟨q, hq, hrun⟩ := (Option.any_eq_true _ _).1 hrun
  obtain ⟨hdeep, hfinds, hrun⟩ := of_decide_eq_true hrun
  obtain ⟨s, hs, hrun⟩ := (Option.any_eq_true _ _).1 hrun
  obtain ⟨hflat, hfinds'⟩ := of_decide_eq_true hrun
  obtain ⟨d, hd, honce⟩ := (Option.any_eq_true _ _).1 hpragma
  obtain ⟨f, hf, hname⟩ := (Option.any_eq_true _ _).1 hname
  obtain ⟨files, hfiles⟩ := List.head?_eq_some_iff.1 hf
  obtain ⟨out, hstep⟩ := step_of_after?_one hq
  have hretires : Retires p q "/b.h" := of_decide_eq_true hname ▸ .pragma hfiles hd honce
  obtain ⟨i, r', hsought, hpath⟩ := exists_sought hfinds
  obtain ⟨j, s', hsought', hpath'⟩ := exists_sought hfinds'
  have hmoves : Moves q s := moves_of_after? hs
  have hhere := once_passed_over rfl (moves_of_after? hp) hstep hretires (.refl q)
  have hlater := once_passed_over rfl (moves_of_after? hp) hstep hretires hmoves
  exact ⟨p, q, q, s, r', s', out, i, j, rfl, moves_of_after? hp, hstep, hretires, .refl q, hmoves,
    ⟨hdeep, hsought, (hhere.1 i r' hsought hpath).1⟩,
    hflat, hsought', (hlater.1 j s' hsought' hpath').1⟩

end Preprocessor

end Preproc
