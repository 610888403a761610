import Preproc.Proofs.Preprocessor.Runs
import Preproc.Proofs.Preprocessor.Silence

/-!
# Runs abreast

Two runs are abreast that differ only in their notes, and in what the main file holds after the
lines that it has in common: the lines `T` in one run and the lines `T'` in the other. They take the
same steps for as long as there are such lines.

## Key results

- `Abreast.step`: two runs that are abreast take a step together, unless the lines that the main
  files have in common are done
- `Abreast.runFrom`: two runs that differ in their notes only end alike
-/

namespace Preproc

open ContextM (Unheeding silence)

/-- The tokens of the lines still to be processed. -/
def OpenFile.left (f : OpenFile) : List (List Token) :=
  f.lines.map (·.value)

/-- Two files that differ only in their notes, and in the lines `T` and `T'` that are left after
those that they have in common. -/
structure OpenFile.Abreast (T T' : List (List Token)) (f f' : OpenFile) : Prop where
  name : f'.name = f.name
  pending : f'.pending = f.pending
  base : f'.base = f.base
  eof : f'.eof = f.eof
  lines : ∃ common, f.left = common ++ T ∧ f'.left = common ++ T'

theorem OpenFile.Abreast.refl (f : OpenFile) : f.Abreast [] [] f :=
  ⟨rfl, rfl, rfl, rfl, f.left, by simp, by simp⟩

namespace Preprocessor

/-- Two stacks of files that differ only in their notes, and in what is left of the main file. -/
inductive FilesAbreast (T T' : List (List Token)) (s : Stage) :
    List OpenFile → List OpenFile → Prop
  | none : FilesAbreast T T' s [] []
  | main {f f' : OpenFile} (hs : s = .main) (h : f.Abreast T T' f') : FilesAbreast T T' s [f] [f']
  | above {f f' : OpenFile} {files files' : List OpenFile} (h : f.Abreast [] [] f')
      (rest : FilesAbreast T T' s files files') : FilesAbreast T T' s (f :: files) (f' :: files')

/-- Two runs have come equally far; if the main file is still to be opened, the two main files will
be abreast. -/
inductive StageAbreast (T T' : List (List Token)) : Stage → Stage → Prop
  | idle : StageAbreast T T' .idle .idle
  | forced {todo : List Path} {file : String} {text text' : List Char}
      (h : ∀ base, (OpenFile.ofText file text base).value.Abreast T T'
        (OpenFile.ofText file text' base).value) :
      StageAbreast T T' (.forced todo file text) (.forced todo file text')
  | main : StageAbreast T T' .main .main
  | ended : StageAbreast T T' .ended .ended

/-- Two runs that differ only in their notes, and in the lines `T` and `T'` of the main file. -/
structure Abreast (T T' : List (List Token)) (p p' : Preprocessor) : Prop where
  env : p'.env = p.env
  context : p'.context.silent = p.context.silent
  stage : StageAbreast T T' p.stage p'.stage
  files : FilesAbreast T T' p.stage p.files p'.files

variable {T T' : List (List Token)}

/-- Equally many files are open. -/
theorem FilesAbreast.length_eq {s : Stage} {files files' : List OpenFile}
    (h : FilesAbreast T T' s files files') : files'.length = files.length := by
  induction h with
  | none => rfl
  | main => rfl
  | above _ _ ih => simp [ih]

/-- What is known of the innermost files of two runs that are abreast. If they are not the main
files, they differ in their notes only. -/
theorem FilesAbreast.innermost {s : Stage} {f f' : OpenFile} {files files' : List OpenFile}
    (h : FilesAbreast T T' s (f :: files) (f' :: files')) :
    ∃ U U', f.Abreast U U' f' ∧ (U = [] ∧ U' = [] ∨ U = T ∧ U' = T' ∧ s = .main ∧ files = []) ∧
      FilesAbreast T T' s files files' ∧
      ∀ g g', g.Abreast U U' g' → FilesAbreast T T' s (g :: files) (g' :: files') := by
  cases h with
  | main hs h => exact ⟨T, T', h, .inr ⟨rfl, rfl, hs, rfl⟩, .none, fun _ _ hg => .main hs hg⟩
  | above h rest => exact ⟨[], [], h, .inl ⟨rfl, rfl⟩, rest, fun _ _ hg => .above hg rest⟩

/-! ## Steps -/

/-- Two steps that lead to runs that are abreast, and produce the same. -/
inductive StepAbreast (T T' : List (List Token)) : Step → Step → Prop
  | more {p p' : Preprocessor} (h : Abreast T T' p p') (out : List Token) :
      StepAbreast T T' (.more p out) (.more p' out)
  | done {p p' : Preprocessor} (h : p'.context.silent = p.context.silent) :
      StepAbreast T T' (.done p) (.done p')
  | failed {p p' : Preprocessor} (e : Failure) (h : p'.context.silent = p.context.silent) :
      StepAbreast T T' (.failed e p) (.failed e p')

/-- Steps that change what is known and the open files. -/
private theorem stepAbreast_more {env : Environment} {c c' : Context} {files files' : List OpenFile}
    {stage stage' : Stage} (hc : c'.silent = c.silent) (hstage : StageAbreast T T' stage stage')
    (hfiles : FilesAbreast T T' stage files files') (out : List Token) :
    StepAbreast T T' (.more { env, context := c, files, stage } out)
      (.more { env, context := c', files := files', stage := stage' } out) := by
  refine .more ?_ out
  exact ⟨rfl, hc, hstage, hfiles⟩

/-- Two actions that do the same but for notes, and what is done after them. -/
private theorem stepAbreast_doing {α : Type} {p p' : Preprocessor} {x x' : ContextM α}
    {next next' : α → Context → Step} (hsame : silence (x' p'.context) = silence (x p.context))
    (hnext : ∀ a c c', c'.silent = c.silent → StepAbreast T T' (next a c) (next' a c')) :
    StepAbreast T T' (p.doing x next) (p'.doing x' next') := by
  cases ContextM.cases_of_silence hsame with
  -- Both succeed with the same result,
  | inl hok =>
    obtain ⟨a, c, c', h, h', hc⟩ := hok
    rw [doing_of_ok h, doing_of_ok h']
    exact hnext a c c' hc
  -- or fail for the same reason.
  | inr herror =>
    obtain ⟨e, c, c', h, h', hc⟩ := herror
    rw [doing_of_error h, doing_of_error h']
    exact .failed e hc

/-- Opening the same file in both runs. -/
theorem Abreast.enter {p p' : Preprocessor} (h : Abreast T T' p p') (name : String)
    (content : Option (List Char)) :
    Abreast T T' (p.enter name content) (p'.enter name content) := by
  cases content with
  | none => exact h
  | some text =>
    unfold Preprocessor.enter
    rw [Context.depth_of_silent h.context]
    exact ⟨h.env, h.context, h.stage, .above (.refl _) h.files⟩

/-- Both runs include the same file. -/
private theorem stepAbreast_includeFile {env : Environment} {context context' : Context}
    {files₀ files₀' files files' : List OpenFile} {stage₀ stage₀' stage stage' : Stage}
    (hcontext : context'.silent = context.silent) (hstage : StageAbreast T T' stage stage')
    (hfiles : FilesAbreast T T' stage files files') (i : Inclusion) :
    StepAbreast T T'
      (({ env, context, files := files₀, stage := stage₀ } :
        Preprocessor).includeFile i files stage)
      (({ env, context := context', files := files₀', stage := stage₀' } :
        Preprocessor).includeFile i files' stage') := by
  -- Equally many files are open, so the limit on them is reached together.
  rw [includeFile_eq, includeFile_eq, hfiles.length_eq]
  refine stepAbreast_doing (Context.unheeding_including _ i hcontext) fun content c c' hc => ?_
  refine .more (Abreast.enter ?_ i.path content) []
  exact ⟨rfl, hc, hstage, hfiles⟩

/-- Both runs take the next forced header, or open their main file. -/
private theorem stepAbreast_stepForced {env : Environment} {context context' : Context}
    {stage stage' : Stage} (hcontext : context'.silent = context.silent) (todo : List Path)
    {file : String} {text text' : List Char}
    (hmain : ∀ base, (OpenFile.ofText file text base).value.Abreast T T'
      (OpenFile.ofText file text' base).value) :
    StepAbreast T T'
      (({ env, context, stage } : Preprocessor).stepForced todo file text)
      (({ env, context := context', stage := stage' } :
        Preprocessor).stepForced todo file text') := by
  cases todo with
  | nil =>
    simp only [Preprocessor.stepForced, openFile, doing_of_ok (Context.keep_apply _ _)]
    rw [Context.depth_of_silent hcontext]
    -- No header is left, so the main files are opened, which differ from here on.
    refine stepAbreast_more ?_ .main (.main rfl (hmain _)) []
    exact hcontext
  | cons header rest =>
    simp only [Preprocessor.stepForced]
    refine stepAbreast_doing (Context.unheeding_findHeader env file _ hcontext)
      fun found c c' hc => ?_
    cases found with
    | some path => exact stepAbreast_includeFile hc (.forced hmain) .none _
    | none =>
      refine stepAbreast_doing (Context.unheeding_missingHeader env _ _ hc)
        fun _ c₁ c₁' hc₁ => ?_
      exact stepAbreast_more hc₁ (.forced hmain) .none []

section Innermost

variable {env : Environment} {context context' : Context}
  {files₀ files₀' files files' : List OpenFile}
  {stage stage' : Stage} {U U' common : List (List Token)} {f f' : OpenFile}
  {lines lines' : List (Noted (List Token))}

/-- Both runs expand what has been collected. -/
private theorem stepAbreast_flush (hcontext : context'.silent = context.silent)
    (hstage : StageAbreast T T' stage stage') (hf : f.Abreast U U' f')
    (hput : ∀ g g', g.Abreast U U' g' → FilesAbreast T T' stage (g :: files) (g' :: files'))
    (hlines : lines.map (·.value) = common ++ U) (hlines' : lines'.map (·.value) = common ++ U') :
    StepAbreast T T'
      (({ env, context, files := files₀, stage } : Preprocessor).flush f lines files)
      (({ env, context := context', files := files₀', stage := stage' } :
        Preprocessor).flush f' lines' files') := by
  unfold flush
  -- The same text is pending in both.
  rw [hf.pending]
  refine stepAbreast_doing (Context.unheeding_expand env false _ hcontext) fun out c c' hc => ?_
  refine stepAbreast_more hc hstage (hput _ _ ?_) out
  exact ⟨hf.name, rfl, hf.base, hf.eof, common, hlines, hlines'⟩

/-- Two runs that are abreast take a line that they have in common. -/
private theorem stepAbreast_takeLine {line line' : Noted (List Token)}
    (hcontext : context'.silent = context.silent) (hstage : StageAbreast T T' stage stage')
    (hf : f.Abreast U U' f')
    (hput : ∀ g g', g.Abreast U U' g' → FilesAbreast T T' stage (g :: files) (g' :: files'))
    (hvalue : line'.value = line.value) (hlines : lines.map (·.value) = common ++ U)
    (hlines' : lines'.map (·.value) = common ++ U') : StepAbreast T T'
      (({ env, context, files := files₀, stage } : Preprocessor).takeLine f line lines files)
      (({ env, context := context', files := files₀', stage := stage' } :
        Preprocessor).takeLine f' line' lines' files') := by
  have hnoted : (context'.noting line'.notes).silent = (context.noting line.notes).silent :=
    hcontext
  -- After the line the files are still abreast, whatever is collected.
  have hkept : ∀ pending, FilesAbreast T T' stage ({ f with lines, pending } :: files)
      ({ f' with lines := lines', pending } :: files') := by
    intro pending
    exact hput _ _ ⟨hf.name, rfl, hf.base, hf.eof, common, hlines, hlines'⟩
  obtain ⟨name, lines₀, closing, pending, base, eof⟩ := f
  obtain ⟨name', lines₀', closing', pending', base', eof'⟩ := f'
  obtain rfl : pending' = pending := hf.pending
  obtain rfl : base' = base := hf.base
  simp only [takeLine, doing_of_ok (Context.keep_apply _ _)]
  rw [hvalue]
  split
  · split
    · refine stepAbreast_doing (Context.unheeding_directive base' line.value hnoted)
        fun wanted c c' hc => ?_
      cases wanted with
      | none => exact stepAbreast_more hc hstage (hkept pending') []
      | some i => exact stepAbreast_includeFile hc hstage (hkept pending') i
    · -- Text is expanded before the line is taken, which is then still in common.
      refine stepAbreast_flush hnoted hstage hf hput (?_ : _ = (line.value :: common) ++ U) ?_
      · simp [hlines]
      · simp [hlines']
  · rw [Context.conditionals_of_silent hnoted]
    exact stepAbreast_more hnoted hstage (hkept _) []

/-- Both runs close a file. -/
private theorem stepAbreast_close (hcontext : context'.silent = context.silent)
    (hstage : StageAbreast T T' stage stage') (hf : f.Abreast [] [] f')
    (hrest : FilesAbreast T T' stage files files') : StepAbreast T T'
      (({ env, context, files := files₀, stage } : Preprocessor).close f files)
      (({ env, context := context', files := files₀', stage := stage' } :
        Preprocessor).close f' files') := by
  have hnoted : (context'.noting f'.closing).silent = (context.noting f.closing).silent := hcontext
  unfold close
  rw [hf.name, hf.base, hf.eof]
  refine stepAbreast_doing (Context.unheeding_closeGroups f.name f.eof.line f.base hnoted)
    fun _ c c' hc => ?_
  cases hrest with
  | none =>
    -- Only a main file that is closed ends the run.
    cases hstage with
    | idle => exact stepAbreast_more hc .idle .none []
    | forced h => exact stepAbreast_more hc (.forced h) .none []
    | main => exact stepAbreast_more hc .ended .none [f.eof]
    | ended => exact stepAbreast_more hc .ended .none []
  | main hs h => exact stepAbreast_more hc hstage (.main hs h) []
  | above h rest => exact stepAbreast_more hc hstage (.above h rest) []

end Innermost

/-- Two runs that are abreast take a step together, unless the lines that the main files have in
common are done and they have others. -/
theorem Abreast.step {p p' : Preprocessor} (h : Abreast T T' p p')
    (hcommon : T = [] ∧ T' = [] ∨ ∀ f, p.stage = .main → p.files = [f] → f.left ≠ T) :
    StepAbreast T T' p.step p'.step := by
  obtain ⟨env, context, files, stage⟩ := p
  obtain ⟨env', context', files', stage'⟩ := p'
  obtain ⟨rfl, hcontext, hstage, hfiles⟩ := h
  simp only at hcontext hstage hfiles hcommon
  cases files with
  | nil =>
    cases hfiles with
    | none =>
      cases hstage with
      | idle => exact .done hcontext
      | forced hmain =>
        exact stepAbreast_stepForced hcontext _ hmain
      | main => exact .done hcontext
      | ended => exact .done hcontext
  | cons f files =>
    cases files' with
    | nil => cases hfiles
    | cons f' files' =>
      obtain ⟨U, U', hf, hU, hrest, hput⟩ := hfiles.innermost
      obtain ⟨common, hleft, hleft'⟩ := hf.lines
      cases common with
      | nil =>
        -- Nothing is left of the lines in common, so nothing is left at all.
        have hnone : U = [] ∧ U' = [] := by
          rcases hU with hU | ⟨rfl, rfl, hs, rfl⟩
          · exact hU
          · exact hcommon.resolve_right fun hne => hne f hs rfl hleft
        obtain ⟨rfl, rfl⟩ := hnone
        have hlines : f.lines = [] := List.map_eq_nil_iff.1 hleft
        have hlines' : f'.lines = [] := List.map_eq_nil_iff.1 hleft'
        simp only [Preprocessor.step, hlines, hlines', hf.pending]
        split
        · exact stepAbreast_close hcontext hstage hf hrest
        · exact stepAbreast_flush hcontext hstage hf hput (rfl : _ = [] ++ []) rfl
      | cons value common =>
        obtain ⟨line, lines, hlines, hvalue, hmore⟩ := List.map_eq_cons_iff.1 hleft
        obtain ⟨line', lines', hlines', hvalue', hmore'⟩ := List.map_eq_cons_iff.1 hleft'
        simp only [Preprocessor.step, hlines, hlines']
        exact stepAbreast_takeLine hcontext hstage hf hput (hvalue'.trans hvalue.symm) hmore hmore'

/-! ## Runs -/

/-- Two runs that ended alike, but for the notes. -/
structure EndAlike (r r' : Finished) : Prop where
  tokens : r'.tokens = r.tokens
  failure : r'.failure = r.failure
  context : r'.last.context.silent = r.last.context.silent

/-- Two runs end alike from a step on that they take together, if they do after it. -/
theorem StepAbreast.runFrom {p p' : Preprocessor} (h : StepAbreast T T' p.step p'.step) (j : Joiner)
    (out : List Token)
    (hmore : ∀ q q' ts, p.step = .more q ts → Abreast T T' q q' →
      EndAlike (q.runFrom (j.pushAll out ts).2 (j.pushAll out ts).1)
        (q'.runFrom (j.pushAll out ts).2 (j.pushAll out ts).1)) :
    EndAlike (p.runFrom j out) (p'.runFrom j out) := by
  -- The two steps are named, so that they can be told apart.
  generalize hs : p.step = s at h
  generalize hs' : p'.step = s' at h
  cases h with
  | more h ts =>
    rw [runFrom_of_more hs, runFrom_of_more hs']
    exact hmore _ _ ts hs h
  | done h =>
    rw [runFrom_of_done hs, runFrom_of_done hs']
    exact ⟨rfl, rfl, h⟩
  | failed e h =>
    rw [runFrom_of_failed hs, runFrom_of_failed hs']
    exact ⟨rfl, rfl, h⟩

/-- Runs that differ in their notes only end alike. -/
theorem Abreast.runFrom {p p' : Preprocessor} (h : Abreast [] [] p p') (j : Joiner)
    (out : List Token) : EndAlike (p.runFrom j out) (p'.runFrom j out) := by
  induction p using wellFounded_below.induction generalizing p' j out with
  | _ p ih =>
    refine (h.step (.inl ⟨rfl, rfl⟩)).runFrom j out fun q q' ts hstep hq => ?_
    exact ih q (below_of_step hstep) hq _ _

end Preprocessor

end Preproc
