import Preproc.Proofs.Preprocessor.Output

/-!
# The end token of a run

Every file has an end token, and every file that is included is processed like the main file; yet a
run gives one end token, that of the main file, and gives it last. A run that has been started is on
its way to that token (`Awaits`): the main file is still to be opened, or is the outermost of the
open files. A step leads on, or it closes the main file and gives its end token, and then no step is
left.

No other token is an end token: all tokens of a file, of a replacement list and of an expansion are
sound (`Preprocessor.Sound`), and an end token is not.

## Key results

- `Awaits.advance`: a step leads on, or gives the end token and ends the run
- `Awaits.runFrom`: a run that does not fail gives the end token last
- `run_ends_with_main_eof`: the tokens of a run end with the end token of the main file
-/

namespace Preproc

namespace Preprocessor

/-! ## On the way to the end token -/

/-- The run is still to give the end token `eof`: it is that of the main file, which is still to be
opened, or is the outermost of the open files. -/
inductive Awaits (eof : Token) (p : Preprocessor) : Prop
  | forced {todo : List Path} {file : String} {text : List Char}
      (hstage : p.stage = .forced todo file text)
      (heof : (lexText file text).value.eof.value = eof)
  | main {f : OpenFile} (hstage : p.stage = .main) (hfiles : p.files.getLast? = some f)
      (heof : f.eof = eof)

namespace Awaits

variable {eof : Token} {p : Preprocessor}

/-- A file that is opened lies on top of the others. -/
theorem enter (h : Awaits eof p) (name : String) (content : Option (List Char)) :
    Awaits eof (p.enter name content) := by
  cases content with
  | none => exact h
  | some text =>
    cases h with
    | forced hstage heof => exact .forced hstage heof
    -- The main file stays below the one that is entered.
    | main hstage hfiles heof =>
      refine .main hstage ?_ heof
      show (_ :: p.files).getLast? = _
      rw [List.getLast?_cons, hfiles]
      rfl

/-- The innermost file may change, but not its end token. -/
theorem withTop {f g : OpenFile} {files : List OpenFile} (h : Awaits eof p)
    (hfiles : p.files = f :: files) (hg : g.eof = f.eof) (c : Context) :
    Awaits eof { p with context := c, files := g :: files } := by
  cases h with
  | forced hstage heof => exact .forced hstage heof
  | @main last hstage hlast heof =>
    rw [hfiles] at hlast
    cases files with
    | nil =>
      -- The innermost file is the main file.
      cases hlast
      exact .main hstage rfl (hg.trans heof)
    | cons outer files => exact .main hstage hlast heof

/-- A run whose main file is still to be opened awaits the end token of its text. -/
private theorem eof_of_forced (h : Awaits eof p) {todo : List Path} {file : String}
    {text : List Char} (hstage : p.stage = .forced todo file text) :
    (lexText file text).value.eof.value = eof := by
  cases h with
  | forced hforced heof =>
    rw [hstage] at hforced
    cases hforced
    exact heof
  -- The stage tells that the main file has not been opened.
  | main hmain _ _ =>
    rw [hstage] at hmain
    cases hmain

/-- A run whose main file has been opened awaits the end token of the outermost file. -/
private theorem eof_of_main (h : Awaits eof p) (hstage : p.stage = .main) :
    ∃ f, p.files.getLast? = some f ∧ f.eof = eof := by
  cases h with
  | forced hforced _ =>
    rw [hstage] at hforced
    cases hforced
  | main _ hlast heof => exact ⟨_, hlast, heof⟩

/-- A run that awaits its end token has not ended. -/
private theorem not_ended (h : Awaits eof p) : p.stage ≠ .ended := by
  cases h with
  | forced hstage _ => simp [hstage]
  | main hstage _ _ => simp [hstage]

/-- A step leads on, or it gives the end token and the run has ended. -/
theorem advance {q : Preprocessor} {out : List Token} (h : Awaits eof p)
    (hadvance : Advance p q out) : Awaits eof q ∨ out = [eof] ∧ q.stage = .ended := by
  cases hadvance with
  | @main file text hfiles hstage =>
    left
    refine .main (f := (OpenFile.ofText file text p.context.conditionals.depth).value) rfl ?_
      (h.eof_of_forced hstage)
    show (_ :: p.files).getLast? = _
    rw [hfiles]
    rfl
  | missing hfiles hstage hfound hreport => exact .inl (.forced rfl (h.eof_of_forced hstage))
  | forced hfiles hstage hfound hcontent =>
    exact .inl (enter (.forced rfl (h.eof_of_forced hstage)) _ _)
  | collect hfiles hlines htext => exact .inl (h.withTop hfiles (by rfl) _)
  | flush hfiles hlines hhash hpending hout => exact .inl (h.withTop hfiles (by rfl) _)
  | flushLast hfiles hlines hpending hout => exact .inl (h.withTop hfiles (by rfl) _)
  | directive hfiles hlines hhash hpending hdone => exact .inl (h.withTop hfiles (by rfl) _)
  | @inclusion f files line lines i content c c' hfiles hlines hhash hpending hdone hcontent =>
    have htop : Awaits eof { p with context := c', files := { f with lines } :: files } :=
      h.withTop hfiles (by rfl) c'
    exact .inl (htop.enter _ _)
  | @close f files c hfiles hlines hpending hmain hclose =>
    left
    cases h with
    | forced hstage heof => exact .forced hstage heof
    | main hstage hlast heof =>
      -- The file that is closed is not the main file, so that one is below it.
      refine .main hstage ?_ heof
      rw [hfiles] at hlast
      cases files with
      | nil => exact absurd ⟨rfl, hstage⟩ hmain
      | cons outer files => exact hlast
  | closeMain hfiles hlines hpending hmain hclose =>
    -- The main file is the only one that is open.
    obtain ⟨last, hlast, rfl⟩ := h.eof_of_main hmain
    rw [hfiles] at hlast
    cases hlast
    exact .inr ⟨rfl, rfl⟩

end Awaits

/-! ## No run is complete before -/

/-- Only what is done after an action can end the run. -/
private theorem of_doing_done {α : Type} {p q : Preprocessor} {act : ContextM α}
    {next : α → Context → Step} (h : p.doing act next = .done q) : ∃ a c, next a c = .done q := by
  unfold doing at h
  split at h
  · exact ⟨_, _, h⟩
  · cases h

/-- Including a file does not end the run. -/
private theorem includeFile_ne_done (p q : Preprocessor) (i : Inclusion) (files : List OpenFile)
    (stage : Stage) : p.includeFile i files stage ≠ .done q := by
  intro h
  rw [includeFile_eq] at h
  obtain ⟨_, _, h⟩ := of_doing_done h
  cases h

/-- A header before the main file does not end the run. -/
private theorem stepForced_ne_done (p q : Preprocessor) (todo : List Path) (file : String)
    (text : List Char) : p.stepForced todo file text ≠ .done q := by
  intro h
  cases todo with
  | nil => cases h
  | cons header rest =>
    simp only [stepForced] at h
    obtain ⟨found, c, h⟩ := of_doing_done h
    cases found with
    | none =>
      obtain ⟨_, _, h⟩ := of_doing_done h
      cases h
    | some path => exact includeFile_ne_done _ _ _ _ _ h

/-- A line does not end the run. -/
private theorem takeLine_ne_done (p q : Preprocessor) (f : OpenFile) (line : Noted (List Token))
    (lines : List (Noted (List Token))) (files : List OpenFile) :
    p.takeLine f line lines files ≠ .done q := by
  intro h
  obtain ⟨ts, c, h⟩ := of_doing_done h
  simp only at h
  split at h
  · -- A directive goes on with another state, and so does the text before it.
    split at h
    · obtain ⟨wanted, c', h⟩ := of_doing_done h
      cases wanted with
      | none => cases h
      | some i => exact includeFile_ne_done _ _ _ _ _ h
    · obtain ⟨_, _, h⟩ := of_doing_done h
      cases h
  · cases h

/-- A run that is complete has no open file, and its main file has been opened. -/
private theorem of_step_done {p q : Preprocessor} (h : p.step = .done q) :
    p.files = [] ∧ ∀ todo file text, p.stage ≠ .forced todo file text := by
  unfold step at h
  split at h
  · rename_i hfiles
    refine ⟨hfiles, fun todo file text hstage => ?_⟩
    rw [hstage] at h
    exact stepForced_ne_done p q todo file text h
  · -- While a file is open there is something left to do.
    exfalso
    split at h
    · exact takeLine_ne_done p q _ _ _ _ h
    · split at h
      · obtain ⟨_, _, h⟩ := of_doing_done h
        split at h
        · cases h
        · cases h
      · obtain ⟨_, _, h⟩ := of_doing_done h
        cases h

/-- A run that awaits its end token is not complete. -/
private theorem Awaits.step_ne_done {eof : Token} {p : Preprocessor} (h : Awaits eof p)
    (q : Preprocessor) : p.step ≠ .done q := by
  intro hdone
  obtain ⟨hnone, hopened⟩ := of_step_done hdone
  cases h with
  | forced hstage _ => exact hopened _ _ _ hstage
  | main _ hlast _ =>
    rw [hnone] at hlast
    cases hlast

/-! ## Runs -/

/-- The tokens end with the end token `eof`, which is the only one among them. -/
def EndWith (eof : Token) (ts : List Token) : Prop :=
  eof.kind = .eof ∧ ∃ body, ts = body ++ [eof] ∧ ∀ t ∈ body, t.kind ≠ .eof

/-- A run that does not fail gives its end token, and gives it last. -/
theorem Awaits.runFrom {eof : Token} {p : Preprocessor} (h : Awaits eof p) (hsound : p.Sound)
    (hkind : eof.kind = .eof) {j : Joiner} (hj : j.HoldsStrings) {out : List Token}
    (hout : AllSound out) (hends : (p.runFrom j out).failure = none) :
    EndWith eof (p.runFrom j out).tokens := by
  fun_induction Preprocessor.runFrom p j out with
  | case1 p j out q hstep => exact absurd hstep (h.step_ne_done q)
  | case2 p j out e q hstep => cases hends
  | case3 p j out q ts hstep joined ih =>
    have hadvance := advance_of_step hstep
    obtain ⟨hq, hgives⟩ := hsound.advance hadvance
    cases h.advance hadvance with
    | inl hawaits =>
      -- The end token is still to come, so what the step gives is sound.
      have hts : AllSound ts := by
        cases hgives with
        | inl hts => exact hts
        | inr hend =>
          obtain ⟨t, -, -, hstage⟩ := hend
          exact absurd hstage hawaits.not_ended
      obtain ⟨hsettled, hheld⟩ := hj.pushAll hout hts
      exact ih hawaits hq hheld hsettled hends
    | inr hend =>
      obtain ⟨rfl, hstage⟩ := hend
      show EndWith eof (q.runFrom (j.pushAll out [eof]).2 (j.pushAll out [eof]).1).tokens
      rw [runFrom_of_ended (hq.ended hstage) hstage hkind]
      -- What was held back is settled by the end token, and stands before it.
      refine ⟨hkind, _, rfl, fun t ht => ?_⟩
      exact (allSound_append.2 ⟨hout.reverse, hj.sound_flush⟩ t ht).kind

/-- The tokens of a run on a text, if it does not fail, end with the end token of the text. -/
private theorem endWith_runText {config : Config} {disk : Disk} {now : Clock} {nesting : Nat}
    {file : String} {text : List Char}
    (hends : ((ofConfig config disk now nesting).runText file text).failure = none) :
    EndWith (lexText file text).value.eof.value
      ((ofConfig config disk now nesting).runText file text).tokens := by
  have hp := sound_ofConfig config disk now nesting
  apply Awaits.runFrom (.forced rfl rfl) _ (Cursor.kind_eof_tokens _ []) _ allSound_nil hends
  · exact ⟨hp.macros, hp.files, fun hended => by cases hended⟩
  · simp [Joiner.HoldsStrings]

/-- The tokens of a run that does not fail are tokens that are no end tokens, and then one end
token: that of the main file, whether its text is given or read from the disk. -/
theorem run_ends_with_main_eof (config : Config) (disk : Disk) (now : Clock) (nesting : Nat) :
    (∀ file text, ((ofConfig config disk now nesting).runText file text).failure = none →
      EndWith (lexText file text).value.eof.value
        ((ofConfig config disk now nesting).runText file text).tokens) ∧
    ∀ path, ((ofConfig config disk now nesting).runFile path).failure = none →
      ∃ text, disk.read config.charset path = .ok text ∧
        EndWith (lexText path text).value.eof.value
          ((ofConfig config disk now nesting).runFile path).tokens := by
  refine ⟨fun file text hends => endWith_runText hends, fun path hends => ?_⟩
  have hread : (ofConfig config disk now nesting).env.disk.read
      (ofConfig config disk now nesting).env.config.charset path =
        disk.read config.charset path := rfl
  unfold runFile at hends ⊢
  rw [hread] at hends ⊢
  cases htext : disk.read config.charset path with
  -- A file that cannot be read makes the run fail.
  | error cause =>
    rw [htext] at hends
    cases hends
  | ok text =>
    rw [htext] at hends
    exact ⟨text, rfl, endWith_runText hends⟩

/-! ## A run with three files -/

namespace Included

/-- Settings that include `f.h` before the main file and define a macro. -/
def config : Config :=
  { forceIncludes := [.ofString "f.h"], defines := ["S(x) #x x##1"] }

/-- A disk with two headers. -/
def disk : Disk :=
  .ofTexts [("f.h", "f \"x\""), ("b.h", "\"y\" S(b)")]

/-- A text that includes a header and ends with a literal. -/
def text : List Char :=
  "#include \"b.h\"\nS(c) \"z\"\n".toList

end Included

open Included in
/-- Literals of all files are joined, but their end tokens are left out. -/
theorem run_ends_with_main_eof_included :
    let run := (ofConfig config disk .sample).runText "a.c" text
    run.failure = none ∧
    run.tokens.map (fun t => (t.value, t.file, t.line)) =
      [("f", "/f.h", 1), ("\"xyb\"", "/f.h", 1), ("b1", "/b.h", 1), ("\"c\"", "a.c", 2),
       ("c1", "a.c", 2), ("\"z\"", "a.c", 2), ("", "a.c", 3)] ∧
    EndWith (lexText "a.c" text).value.eof.value run.tokens := by
  intro run
  -- The run is computed with a bound on its steps.
  have hwithin : ((ofConfig config disk .sample).runTextWithin 16 "a.c" text).any
      (fun run => run.failure = none ∧
        run.tokens.map (fun t => (t.value, t.file, t.line)) =
          [("f", "/f.h", 1), ("\"xyb\"", "/f.h", 1), ("b1", "/b.h", 1), ("\"c\"", "a.c", 2),
           ("c1", "a.c", 2), ("\"z\"", "a.c", 2), ("", "a.c", 3)]) = true := by
    decide +kernel
  obtain ⟨f, hf, hall⟩ := (Option.any_eq_true _ _).1 hwithin
  have hrun : run = f := runText_of_runTextWithin hf
  obtain ⟨hends, htokens⟩ := of_decide_eq_true hall
  rw [← hrun] at hends htokens
  exact ⟨hends, htokens, (run_ends_with_main_eof config disk _ _).1 "a.c" text hends⟩

end Preprocessor

end Preproc
