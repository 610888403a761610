import Preproc.Proofs.ForStd
import Preproc.Proofs.Preprocessor.Once

/-!
# Files that are refused

A file that is asked for may not be processed: it is not found, it is passed over, too many files
are open, or it cannot be read. Whatever the reason, and whether or not the run goes on, the step
leaves the definitions, the open groups and the open files as they are.

It should leave the files to be included once as they are, too, so that the file can be processed
when it is asked for again. This is so for every request but one: an `#import` remembers the file
that it finds before it is clear whether the file is processed.

## Key results

- `unmoved_of_not_sought`, `unmoved_of_refused`: what a refusal leaves alone
- `refused_include`: when a refusal leaves the files to be included once alone
- `refused_import_remembered`: an import that is refused for good
-/

namespace Preproc

namespace Preprocessor

/-- Definitions and open groups are the same, and so are the open files, but for the lines that are
left in them. How often `__COUNTER__` has been used is left open: a header that is given by a macro
may use it, whether it is included or refused. -/
structure Unmoved (p q : Preprocessor) : Prop where
  env : q.env = p.env
  macros : q.context.macros.macros = p.context.macros.macros
  conditionals : q.context.conditionals = p.context.conditionals
  frames : q.files.map OpenFile.frame = p.files.map OpenFile.frame

private theorem Looked.unmoved {p p' : Preprocessor} (h : Looked p p') : Unmoved p p' :=
  ⟨h.env, h.alike.macros, h.alike.conditionals, h.frames⟩

/-! ## Requests without a file -/

private theorem unmoved_of_alike {p : Preprocessor} {c : Context} {files : List OpenFile}
    (halike : p.context.Alike c) (hframes : files.map OpenFile.frame = p.files.map OpenFile.frame)
    (stage : Stage) : Unmoved p { p with context := c, files, stage } ∧ c.once = p.context.once :=
  ⟨⟨rfl, halike.macros, halike.conditionals, hframes⟩, halike.once⟩

/-- A header that comes before the main file and is not found is only reported. -/
private theorem unmoved_of_missing {p : Preprocessor} {header : Path} {rest : List Path}
    {file : String} {text : List Char} (hfiles : p.files = [])
    (hstage : p.stage = .forced (header :: rest) file text) (hnot : p.sought? = none) :
    Unmoved p p.step.state ∧ p.step.state.context.once = p.context.once := by
  let name : HeaderName := ⟨header.toString, false⟩
  have hlooks := Context.leaves_findHeader p.env file name p.context
  cases hfound : Context.findHeader p.env file name p.context with
  | error e c => cases hfound
  | ok found c =>
    rw [hfound] at hlooks
    cases found with
    | some path =>
      rw [sought?_eq_some_iff.2 (.forced hfiles hstage hfound)] at hnot
      cases hnot
    | none =>
      -- The report may end the run, but leaves all as it is.
      have hreports := Context.leaves_missingHeader p.env ⟨file, 0, .headerNotFound name⟩
        ("-include " ++ name.path) c
      simp only [step, hfiles, hstage, stepForced]
      rw [doing_of_ok hfound]
      simp only
      cases hreport : Context.missingHeader p.env ⟨file, 0, .headerNotFound name⟩
          ("-include " ++ name.path) c with
      | ok u c' =>
        rw [hreport] at hreports
        rw [doing_of_ok hreport]
        exact unmoved_of_alike (hlooks.trans hreports) (by rw [hfiles]) _
      | error e c' =>
        rw [hreport] at hreports
        rw [doing_of_error hreport]
        exact unmoved_of_alike (hlooks.trans hreports) (by rw [hfiles]) _

/-- An include directive that finds no file only looks for it. -/
private theorem unmoved_of_fruitless {p : Preprocessor} {d : DirectiveLine} {target : IncludeTarget}
    {once : Bool} (hd : p.handled? = some d) (hdirective : d.directive = .inclusion target once)
    (hnot : p.sought? = none) :
    Unmoved p p.step.state ∧ p.step.state.context.once = p.context.once := by
  obtain ⟨f, files, line, lines, hfiles, hlines, hhash, hpending, hheeded⟩ := of_handled hd
  -- Nothing is done for the directive but looking for its file.
  have hdone : Context.directive p.env f.base line.value (p.context.noting line.notes) =
      Context.inclusion? p.env d target once
        ((p.context.noting line.notes).afterReading line.value) := by
    rw [@Context.directive_of_heeded (p.context.noting line.notes) _ _ hheeded]
    unfold Context.carryOut
    rw [hdirective]
  have hlooks := Context.leaves_inclusion? p.env d target once
    ((p.context.noting line.notes).afterReading line.value)
  rw [← hdone] at hlooks
  cases hresult : Context.directive p.env f.base line.value (p.context.noting line.notes) with
  | error e c =>
    rw [hresult] at hlooks
    rw [step_of_directive_error hfiles hlines hhash hpending hresult]
    exact unmoved_of_alike ⟨hlooks.macros, hlooks.conditionals, hlooks.once⟩ rfl _
  | ok wanted c =>
    rw [hresult] at hlooks
    cases wanted with
    | none =>
      rw [step_of_directive_none hfiles hlines hhash hpending hresult]
      exact unmoved_of_alike ⟨hlooks.macros, hlooks.conditionals, hlooks.once⟩
        (frames_of_files hfiles lines) _
    | some i =>
      rw [sought?_eq_some_iff.2 (.directive hfiles hlines hhash hpending hresult)] at hnot
      cases hnot

/-- A request for which no file is found leaves all as it is, whether the run goes on or not. -/
theorem unmoved_of_not_sought {p : Preprocessor} {r : Request} (hask : p.request? = some r)
    (hnot : p.sought? = none) :
    Unmoved p p.step.state ∧ p.step.state.context.once = p.context.once := by
  unfold request? at hask
  split at hask
  · rename_i hfiles
    split at hask
    · -- A forced header was not found.
      rename_i hstage
      exact unmoved_of_missing hfiles hstage hnot
    · cases hask
  · split at hask
    · cases hask
    · rename_i d hd
      split at hask
      · -- A directive asked for it.
        rename_i hdirective
        exact unmoved_of_fruitless hd hdirective hnot
      · cases hask

/-! ## Files that are found and refused -/

/-- A file that is found and not passed over, but has no text that is processed, leaves all as it
is, but for the files to be included once: to these it is added if it is an import. -/
theorem unmoved_of_refused {p p' : Preprocessor} {i : Inclusion} (hfinds : Finds p i p')
    (honce : Context.isOnce p.env i.path p.context = false)
    (hrefused : p.step.state.files.length ≤ p.files.length) :
    Unmoved p p.step.state ∧ p.step.state.context.once =
      if i.once then Context.canonicalName p.env i.path :: p.context.once else p.context.once := by
  have hlooked := hfinds.looked
  -- Remembering the file changes nothing else.
  have hentered : p'.context.macros.macros = (Context.entering p.env i p'.context).macros.macros ∧
      p'.context.conditionals = (Context.entering p.env i p'.context).conditionals := by
    unfold Context.entering
    split
    · exact ⟨rfl, rfl⟩
    · exact ⟨rfl, rfl⟩
  -- From there on only reports are made.
  have hstate : ∀ {c : Context}, (Context.entering p.env i p'.context).Alike c →
      Unmoved p { p' with context := c } ∧ c.once = if i.once then
        Context.canonicalName p.env i.path :: p.context.once else p.context.once := by
    intro c halike
    refine ⟨⟨hlooked.env, ?_, ?_, hlooked.frames⟩, ?_⟩
    · exact halike.macros.trans (hentered.1.symm.trans hlooked.alike.macros)
    · exact halike.conditionals.trans (hentered.2.symm.trans hlooked.alike.conditionals)
    · rw [halike.once, once_of_entering, hlooked.alike.once]
  have hstep := hfinds.step_of_not_isOnce honce
  have hleaves :=
    Context.leaves_reading p.env p.files.length i (Context.entering p.env i p'.context)
  cases hread : Context.reading p.env p.files.length i (Context.entering p.env i p'.context) with
  | error e c =>
    rw [hread] at hleaves
    rw [hstep, doing_of_error hread]
    exact hstate hleaves
  | ok content c =>
    rw [hread] at hleaves
    rw [hstep, doing_of_ok hread] at hrefused ⊢
    cases content with
    | none => exact hstate hleaves
    | some text =>
      -- A file with a text is opened.
      have hlt : p'.files.length + 1 ≤ p.files.length := hrefused
      rw [hlooked.length_files] at hlt
      omega

/-! ## Asking again -/

/-- The run comes from `p` to `q`, and on the way no step sets the file `n`. -/
inductive Unmarked (n : String) : Preprocessor → Preprocessor → Prop
  | refl (p : Preprocessor) : Unmarked n p p
  | step {p q r : Preprocessor} {out : List Token} (quiet : ¬Sets p n)
      (first : p.step = .more q out) (rest : Unmarked n q r) : Unmarked n p r
  | outside {p r : Preprocessor} (macros : MacroTable) (disk : Disk)
      (rest : Unmarked n
        { p with env := { p.env with disk }, context := { p.context with macros } } r) :
      Unmarked n p r

/-- A file that nothing sets is not remembered. -/
private theorem Unmarked.not_mem_once {n : String} {p q : Preprocessor} (h : Unmarked n p q)
    (hn : n ∉ p.context.once) : n ∉ q.context.once := by
  induction h with
  | refl => exact hn
  | step quiet first _ ih =>
    apply ih
    rw [mem_once_iff first]
    exact fun hor => hor.elim hn quiet
  | outside _ _ _ ih => exact ih hn

/-- A file that nothing has set in the meantime is opened with its whole text when it is found
again, if there is room and it can be read. -/
theorem Unmarked.opens {n : String} {p q q' : Preprocessor} {i : Inclusion} {text : List Char}
    (h : Unmarked n p q) (hn : n ∉ p.context.once) (hfinds : Finds q i q')
    (hpath : Context.canonicalName q.env i.path = n)
    (hroom : q.files.length < q.env.config.maxIncludeDepth)
    (hread : q.env.disk.read q.env.config.charset i.path = .ok text) :
    ∃ c, q.step =
      .more (({ q' with context := c } : Preprocessor).enter i.path (some text)) [] := by
  -- Nothing has marked the file in the meantime.
  have honce : Context.isOnce q.env i.path q.context = false := by
    rw [Context.isOnce_eq_false_iff, hpath]
    exact h.not_mem_once hn
  rw [hfinds.step_of_not_isOnce honce]
  exact ⟨_, doing_of_ok (Context.reading_of_text hroom hread _)⟩

/-! ## What a refusal changes -/

/-- The next step of `p` remembers a file that it finds for an import. -/
def Imports (p : Preprocessor) (r : Request) : Prop :=
  r.once = true ∧
    ∃ i p', p.sought? = some (i, p') ∧ Context.isOnce p.env i.path p.context = false

/-- A refusal leaves all as it is, but an import remembers the file that it has found. -/
private theorem outcome_of_refused {p : Preprocessor} {r : Request} (hask : p.request? = some r)
    (hrefused : p.step.state.files.length ≤ p.files.length) :
    Unmoved p p.step.state ∧
      (¬Imports p r ∧ p.step.state.context.once = p.context.once ∨
        Imports p r ∧ ∃ i p', p.sought? = some (i, p') ∧
          Context.isOnce p.env i.path p.context = false ∧
          p.step.state.context.once = Context.canonicalName p.env i.path :: p.context.once) := by
  cases hsought : p.sought? with
  | none =>
    obtain ⟨hunmoved, hsame⟩ := unmoved_of_not_sought hask hsought
    refine ⟨hunmoved, .inl ⟨?_, hsame⟩⟩
    rintro ⟨-, i, p', hfound, -⟩
    rw [hsought] at hfound
    cases hfound
  | some found =>
    obtain ⟨i, p'⟩ := found
    have hfinds := sought?_eq_some_iff.1 hsought
    obtain ⟨r', hask', -, -, hkind⟩ := hfinds.request
    obtain rfl : r = r' := Option.some.inj (hask.symm.trans hask')
    have himports : Imports p r →
        r.once = true ∧ Context.isOnce p.env i.path p.context = false := by
      rintro ⟨honly, j, q, hfound, hnot⟩
      rw [hsought] at hfound
      cases hfound
      exact ⟨honly, hnot⟩
    cases honce : Context.isOnce p.env i.path p.context with
    | true =>
      -- The file is passed over.
      rw [hfinds.step_of_isOnce honce]
      refine ⟨hfinds.looked.unmoved, .inl ⟨fun h => ?_, hfinds.looked.alike.once⟩⟩
      rw [(himports h).2] at honce
      cases honce
    | false =>
      obtain ⟨hunmoved, hafter⟩ := unmoved_of_refused hfinds honce hrefused
      refine ⟨hunmoved, ?_⟩
      rw [hkind] at hafter
      cases honly : r.once with
      | true =>
        rw [if_pos honly] at hafter
        exact .inr ⟨⟨honly, i, p', hsought, honce⟩, i, p', rfl, honce, hafter⟩
      | false =>
        rw [honly, if_neg Bool.false_ne_true] at hafter
        refine .inl ⟨fun h => ?_, hafter⟩
        rw [honly] at himports
        cases (himports h).1

/-- What a refusal changes. Let a step ask for a file and open none, because there is none, because
it is passed over, because too many files are open or because it cannot be read. Then definitions,
open groups and open files are as before, also if the run ends. Files to be included once are as
before just if the request is not an import that has found a file which was not to be passed over.
In that case, the file that it has found is processed in full when it is asked for later, if it was
not to be passed over, there is room then and it can be read, and nothing has set it in between. -/
theorem refused_include {p : Preprocessor} {r : Request} (hask : p.request? = some r)
    (hrefused : p.step.state.files.length ≤ p.files.length) :
    Unmoved p p.step.state ∧
    ((∀ file, Context.isOnce p.env file p.step.state.context =
        Context.isOnce p.env file p.context) ↔ ¬Imports p r) ∧
    (¬Imports p r → ∀ i p', p.sought? = some (i, p') →
      Context.isOnce p.env i.path p.context = false →
      ∀ s, Unmarked (Context.canonicalName p.env i.path) p.step.state s →
      ∀ j s' text, s.sought? = some (j, s') →
        Context.canonicalName s.env j.path = Context.canonicalName p.env i.path →
        s.files.length < s.env.config.maxIncludeDepth →
        s.env.disk.read s.env.config.charset j.path = .ok text →
        ∃ c, s.step = .more (({ s' with context := c } : Preprocessor).enter j.path (some text))
          []) := by
  obtain ⟨hunmoved, ⟨hno, hsame⟩ | ⟨hyes, i, p', hfound, hnot, hafter⟩⟩ :=
    outcome_of_refused hask hrefused
  · -- The marks are those of before, so the file can be opened later.
    refine ⟨hunmoved, ⟨fun _ => hno, fun _ file => Context.isOnce_congr hsame p.env file⟩, ?_⟩
    intro _ i p' hfound hnot s hlater j s' text hagain hpath hroom hread
    have hn : Context.canonicalName p.env i.path ∉ p.step.state.context.once := by
      rw [hsame]
      exact Context.isOnce_eq_false_iff.1 hnot
    exact hlater.opens hn (sought?_eq_some_iff.1 hagain) hpath hroom hread
  · -- The file has been marked, although it was not opened.
    refine ⟨hunmoved, ⟨fun hflags => ?_, fun hno => absurd hyes hno⟩, fun hno => absurd hyes hno⟩
    have hmarked : Context.isOnce p.env i.path p.step.state.context = true := by
      rw [Context.isOnce_iff, hafter]
      exact List.mem_cons_self
    rw [hflags, hnot] at hmarked
    cases hmarked

/-! ## A header for which too many files are open -/

namespace TooDeep

/-- A run on a file that includes `a.h` and imports `b.h`, where `a.h` asks for `b.h`, too, by the
given line. No more than two files may be open, so `a.h` is refused what it asks for. -/
def begun (line : String) : Preprocessor :=
  { ofConfig { maxIncludeDepth := 2 } (.ofTexts [("a.h", line), ("b.h", "x")]) .sample with
    stage := .forced [] "m.c" "#include \"a.h\"\n#import \"b.h\"".toList }

/-- The next step finds the header `b.h`, which can be read. -/
def finds (p : Preprocessor) : Bool :=
  p.sought?.any fun (i, _) =>
    Context.canonicalName p.env i.path = "/b.h" ∧
      (p.env.disk.read p.env.config.charset i.path).toOption = some ['x']

/-- A test that was passed tells which file is found. -/
theorem exists_sought {p : Preprocessor} (h : finds p = true) :
    ∃ i p', p.sought? = some (i, p') ∧ Context.canonicalName p.env i.path = "/b.h" ∧
      p.env.disk.read p.env.config.charset i.path = .ok ['x'] := by
  obtain ⟨⟨i, p'⟩, hfound, hall⟩ := (Option.any_eq_true _ _).1 h
  obtain ⟨hpath, hread⟩ := of_decide_eq_true hall
  exact ⟨i, p', hfound, hpath, Except.eq_ok_of_toOption hread⟩

/-- A step that carries out no directive and finds no file sets none. -/
private theorem not_sets {p : Preprocessor} (hhandled : p.handled? = none)
    (hsought : p.sought? = none) (n : String) : ¬Sets p n := by
  intro h
  cases h with
  | pragma hd _ =>
    rw [hhandled] at hd
    cases hd
  | imported hfound _ =>
    rw [hsought] at hfound
    cases hfound

end TooDeep

open TooDeep in
/-- The header `b.h` is refused to `a.h`, and processed in full afterwards. -/
theorem refused_include_tooDeep : ∃ (p s p' s' : Preprocessor) (r : Request) (i j : Inclusion)
    (c : Context), (Moves (begun "#include \"b.h\"") p ∧ p.request? = some r ∧ r.once = false ∧
      p.step.state.files.length ≤ p.files.length ∧ p.sought? = some (i, p') ∧
      Context.isOnce p.env i.path p.context = false ∧
      Unmarked (Context.canonicalName p.env i.path) p.step.state s ∧ s.sought? = some (j, s')) ∧
    s.step = .more (({ s' with context := c } : Preprocessor).enter j.path (some ['x'])) [] := by
  -- The second step is refused, and after one more the same file is asked for with room.
  have hrun : ((begun "#include \"b.h\"").after? 2).any (fun p =>
      p.request?.any (fun r => r.once = false) ∧ p.step.state.files.length ≤ p.files.length ∧
      finds p ∧ p.context.once = [] ∧ p.step.state.handled?.isNone ∧ p.step.state.sought?.isNone ∧
      (p.step.state.after? 1).any fun s =>
        s.files.length < s.env.config.maxIncludeDepth ∧ finds s) = true := by
    decide +kernel
  obtain ⟨p, hp, hrun⟩ := (Option.any_eq_true _ _).1 hrun
  obtain ⟨hrequest, hrefused, hfinds, honce, hhandled, hsought, hrun⟩ := of_decide_eq_true hrun
  obtain ⟨r, hask, hplain⟩ := (Option.any_eq_true _ _).1 hrequest
  have hplain : r.once = false := of_decide_eq_true hplain
  obtain ⟨s, hs, hrun⟩ := (Option.any_eq_true _ _).1 hrun
  obtain ⟨hroom, hfinds'⟩ := of_decide_eq_true hrun
  obtain ⟨i, p', hfound, hpath, -⟩ := exists_sought hfinds
  obtain ⟨j, s', hagain, hpath', hread⟩ := exists_sought hfinds'
  obtain ⟨out, hstep⟩ := step_of_after?_one hs
  have hnot : Context.isOnce p.env i.path p.context = false := by
    rw [Context.isOnce_eq_false_iff, honce]
    exact List.not_mem_nil
  -- The step between the two neither carries out a directive nor looks for a file.
  have hlater : Unmarked (Context.canonicalName p.env i.path) p.step.state s :=
    .step (not_sets (Option.isNone_iff_eq_none.1 hhandled) (Option.isNone_iff_eq_none.1 hsought) _)
      hstep (.refl s)
  have hno : ¬Imports p r := fun h => by
    rw [Imports, hplain] at h
    cases h.1
  obtain ⟨c, hopens⟩ := (refused_include hask hrefused).2.2 hno i p' hfound hnot s hlater j s' ['x']
    hagain (hpath'.trans hpath.symm) hroom hread
  exact ⟨p, s, p', s', r, i, j, c, ⟨moves_of_after? hp, hask, hplain, hrefused, hfound, hnot,
    hlater, hagain⟩, hopens⟩

open TooDeep in
/-- If `a.h` asks by an import, the refusal makes `b.h` a file that is not to be included again.
When the main file asks for it there is room, but it is passed over. -/
theorem refused_import_remembered : ∃ (p q s s' : Preprocessor) (r : Request) (j : Inclusion)
    (out : List Token), Moves (begun "#import \"b.h\"") p ∧ p.request? = some r ∧
      p.step = .more q out ∧ q.files.length ≤ p.files.length ∧
      Context.isOnce p.env "/b.h" p.context = false ∧
      Context.isOnce q.env "/b.h" q.context = true ∧
      Moves q s ∧ s.sought? = some (j, s') ∧ Context.canonicalName s.env j.path = "/b.h" ∧
      s.files.length < s.env.config.maxIncludeDepth ∧
      s.env.disk.read s.env.config.charset j.path = .ok ['x'] ∧
      s.step = .more s' [] ∧ s'.files.length = s.files.length := by
  -- The second step is refused, and the file is asked for again two steps later.
  have hrun : ((begun "#import \"b.h\"").after? 2).any (fun p =>
      p.request?.isSome ∧ Context.isOnce p.env "/b.h" p.context = false ∧
      (p.after? 1).any fun q => q.files.length ≤ p.files.length ∧
        Context.isOnce q.env "/b.h" q.context = true ∧
        (q.after? 1).any fun s => s.files.length < s.env.config.maxIncludeDepth ∧ finds s ∧
          "/b.h" ∈ s.context.once) = true := by
    decide +kernel
  obtain ⟨p, hp, hrun⟩ := (Option.any_eq_true _ _).1 hrun
  obtain ⟨hrequest, hbefore, hrun⟩ := of_decide_eq_true hrun
  obtain ⟨r, hask⟩ := Option.isSome_iff_exists.1 hrequest
  obtain ⟨q, hq, hrun⟩ := (Option.any_eq_true _ _).1 hrun
  obtain ⟨hrefused, hafter, hrun⟩ := of_decide_eq_true hrun
  obtain ⟨s, hs, hrun⟩ := (Option.any_eq_true _ _).1 hrun
  obtain ⟨hroom, hfinds, honce⟩ := of_decide_eq_true hrun
  obtain ⟨j, s', hagain, hpath, hread⟩ := exists_sought hfinds
  have hlater : Moves q s := moves_of_after? hs
  obtain ⟨out, hstep⟩ := step_of_after?_one hq
  -- The mark is found by the real name of the file.
  have hpassed : Context.isOnce s.env j.path s.context = true := by
    rw [Context.isOnce_iff, hpath]
    exact honce
  have hfound := sought?_eq_some_iff.1 hagain
  exact ⟨p, q, s, s', r, j, out, moves_of_after? hp, hask, hstep, hrefused, hbefore, hafter, hlater,
    hagain, hpath, hroom, hread, hfound.step_of_isOnce hpassed, hfound.looked.length_files⟩

end Preprocessor

end Preproc
