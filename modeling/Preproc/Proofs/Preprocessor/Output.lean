import Preproc.Proofs.Lexing.Layout
import Preproc.Proofs.Preprocessor.Definitions
import Preproc.Proofs.Preprocessor.Runs

/-!
# Reading the output of a run

The tokens of a run are written as a text. All of them but the strings are spellings, and the end
token is the last, because every step of the run gives such tokens and keeps those that are still to
come: so whether the text is read as the same tokens is a question of the strings among them, and of
what is written side by side.

## Key results

- `Preprocessor.Sound.advance`: what a step gives, and what it keeps
- `Preprocessor.ends_runText`: the tokens of a run are sound, up to an end token
- `relex_layout_run_iff`: when the text of a run's tokens is read as these tokens
-/

namespace Preproc

/-! ## Steps -/

/-- All tokens that a file still gives are sound, and it ends with an end token. -/
structure OpenFile.Sound (f : OpenFile) : Prop where
  lines : ∀ line ∈ f.lines, AllSound line.value
  pending : AllSound f.pending
  eof : f.eof.kind = .eof

/-- What holds of all lines holds of the first and of the others. -/
theorem OpenFile.Sound.line {f : OpenFile} (h : f.Sound) {line : Noted (List Token)}
    {lines : List (Noted (List Token))} (hlines : f.lines = line :: lines) :
    AllSound line.value ∧ ∀ l ∈ lines, AllSound l.value :=
  List.forall_mem_cons.1 (hlines ▸ h.lines)

/-- Lines are made of the tokens that are grouped. -/
theorem Lexed.mem_of_mem_groupLines {closing notes : List Note} {line : List Token}
    {ts : List (Noted Token)} {l : Noted (List Token)} {t : Token}
    (hl : l ∈ (groupLines closing line notes ts).1) (ht : t ∈ l.value) :
    t ∈ line ∨ t ∈ ts.map (·.value) := by
  fun_induction groupLines closing line notes ts with
  | case1 => cases hl
  | case2 line notes hmore =>
    rw [List.mem_singleton.1 hl] at ht
    exact .inl (List.mem_reverse.1 ht)
  -- The next token starts a line, so the one before it is complete.
  | case3 line notes u us hbreak lines rest hgroup ih =>
    rw [hgroup] at ih
    cases List.mem_cons.1 hl with
    | inl heq =>
      rw [heq] at ht
      exact .inl (List.mem_reverse.1 ht)
    | inr hmem =>
      refine .inr (List.mem_cons.2 ((ih hmem).imp ?_ id))
      exact List.mem_singleton.1
  -- The next token goes on with the line.
  | case4 line notes u us hgo ih =>
    rw [List.map_cons, List.mem_cons, ← or_assoc]
    refine (ih hl).imp_left fun hmem => ?_
    exact (List.mem_cons.1 hmem).symm

/-- The text is read up to an end token. -/
theorem Cursor.kind_eof_tokens (c : Cursor) (before : List (Noted Token)) :
    (c.tokens before).eof.value.kind = .eof :=
  congrArg Prod.fst (c.face_eof_tokens before)

/-- A file that is opened is sound. -/
theorem OpenFile.sound_ofText (name : String) (text : List Char) (base : Nat) :
    (OpenFile.ofText name text base).value.Sound where
  lines := by
    intro line hline t ht
    cases Lexed.mem_of_mem_groupLines hline ht with
    | inl hmem => cases hmem
    | inr hmem =>
      obtain ⟨u, hu, rfl⟩ := List.mem_map.1 hmem
      exact sound_of_mem_lexText hu
  pending := allSound_nil
  eof := Cursor.kind_eof_tokens _ []

namespace Preprocessor

/-- All tokens that a run still gives are sound, up to the end token of the main file. -/
structure Sound (p : Preprocessor) : Prop where
  macros : p.context.macros.Sound
  files : ∀ f ∈ p.files, f.Sound
  ended : p.stage = .ended → p.files = []

/-- Opening a file leaves a run sound. -/
theorem Sound.enter {p : Preprocessor} (h : p.Sound) (hstage : p.stage ≠ .ended) (name : String)
    (content : Option (List Char)) : (p.enter name content).Sound := by
  cases content with
  | none => exact h
  | some text =>
    exact {
      macros := h.macros
      files := List.forall_mem_cons.2 ⟨OpenFile.sound_ofText name text _, h.files⟩
      ended := fun hended => absurd hended hstage }

/-- What a step gives of a run that is sound: sound tokens, or the end token as the last. -/
def Gives (q : Preprocessor) (out : List Token) : Prop :=
  AllSound out ∨ ∃ t, out = [t] ∧ t.kind = .eof ∧ q.stage = .ended

/-- While a file is open, the run has not ended. -/
theorem Sound.top {p : Preprocessor} {f : OpenFile} {files : List OpenFile} (h : p.Sound)
    (hfiles : p.files = f :: files) : p.stage ≠ .ended ∧ f.Sound ∧ ∀ g ∈ files, g.Sound := by
  refine ⟨fun hended => ?_, List.forall_mem_cons.1 (hfiles ▸ h.files)⟩
  rw [h.ended hended] at hfiles
  cases hfiles

/-- The innermost file may change, and what is known. -/
theorem Sound.withTop {p : Preprocessor} {f g : OpenFile} {files : List OpenFile} (h : p.Sound)
    (hfiles : p.files = f :: files) {c : Context} (hc : c.macros.Sound) (hg : g.Sound) :
    ({ p with context := c, files := g :: files } : Preprocessor).Sound := by
  obtain ⟨hstage, -, hrest⟩ := h.top hfiles
  exact ⟨hc, List.forall_mem_cons.2 ⟨hg, hrest⟩, fun hended => absurd hended hstage⟩

/-- A step of a run that is sound gives sound tokens, or the end token as the last, and leaves the
run sound. -/
theorem Sound.advance {p q : Preprocessor} {out : List Token} (h : p.Sound)
    (hadvance : Advance p q out) : q.Sound ∧ Gives q out := by
  have hnothing : ∀ {q : Preprocessor}, q.Sound → q.Sound ∧ Gives q [] :=
    fun hq => ⟨hq, .inl allSound_nil⟩
  cases hadvance with
  | main hfiles hstage =>
    apply hnothing
    apply Sound.enter
    · exact ⟨h.macros, h.files, by simp⟩
    · simp
  | missing hfiles hstage hfound hreport =>
    have hc := (Context.looksOnly_findHeader _ _ _).keeps_definitions.sound hfound h.macros
    have hc' := (Context.looksOnly_missingHeader _ _ _).keeps_definitions.sound hreport hc
    exact hnothing ⟨hc', h.files, by simp⟩
  | forced hfiles hstage hfound hcontent =>
    have hc := (Context.looksOnly_findHeader _ _ _).keeps_definitions.sound hfound h.macros
    have hc' := (Context.keeps_definitions_including _ _ _).sound hcontent hc
    apply hnothing
    apply Sound.enter
    · exact ⟨hc', h.files, by simp⟩
    · simp
  | @collect f files line lines hfiles hlines htext =>
    -- A line of text waits in front of what waits already, or is skipped.
    obtain ⟨-, hf, -⟩ := h.top hfiles
    obtain ⟨hline, hmore⟩ := hf.line hlines
    refine hnothing (h.withTop hfiles h.macros ⟨hmore, ?_, hf.eof⟩)
    show AllSound (if p.context.conditionals.active then line.value.reverse ++ f.pending
      else f.pending)
    split
    · exact allSound_append.2 ⟨hline.reverse, hf.pending⟩
    · exact hf.pending
  | @flush f files line lines out c hfiles hlines hhash hpending hout =>
    obtain ⟨-, hf, -⟩ := h.top hfiles
    have hc := (Context.looksOnly_expand _ _ _).keeps_definitions.sound hout h.macros
    obtain ⟨hline, hmore⟩ := hf.line hlines
    refine ⟨h.withTop hfiles hc ⟨?_, allSound_nil, hf.eof⟩, .inl ?_⟩
    · exact List.forall_mem_cons.2 ⟨hline, hmore⟩
    · exact Context.sound_expand hout h.macros hf.pending.reverse
  | @flushLast f files out c hfiles hlines hpending hout =>
    obtain ⟨-, hf, -⟩ := h.top hfiles
    have hc := (Context.looksOnly_expand _ _ _).keeps_definitions.sound hout h.macros
    refine ⟨h.withTop hfiles hc ⟨by simp, allSound_nil, hf.eof⟩, .inl ?_⟩
    exact Context.sound_expand hout h.macros hf.pending.reverse
  | @directive f files line lines c hfiles hlines hhash hpending hdone =>
    obtain ⟨-, hf, -⟩ := h.top hfiles
    obtain ⟨hline, hmore⟩ := hf.line hlines
    have hc := Context.sound_directive hdone h.macros hline
    exact hnothing (h.withTop hfiles hc ⟨hmore, hf.pending, hf.eof⟩)
  | @inclusion f files line lines i content c c' hfiles hlines hhash hpending hdone hcontent =>
    obtain ⟨hstage, hf, -⟩ := h.top hfiles
    obtain ⟨hline, hmore⟩ := hf.line hlines
    have hc := Context.sound_directive hdone h.macros hline
    have hc' := (Context.keeps_definitions_including _ _ _).sound hcontent hc
    apply hnothing
    apply Sound.enter
    · exact h.withTop hfiles hc' ⟨hmore, hf.pending, hf.eof⟩
    · exact hstage
  | close hfiles hlines hpending hmain hclose =>
    obtain ⟨hstage, -, hrest⟩ := h.top hfiles
    have hc := (Context.keeps_definitions_closeGroups _ _ _ _).sound hclose h.macros
    exact hnothing ⟨hc, hrest, fun hended => absurd hended hstage⟩
  | closeMain hfiles hlines hpending hmain hclose =>
    -- This is the only step that gives an end token, and it ends the run.
    obtain ⟨-, hf, -⟩ := h.top hfiles
    have hc := (Context.keeps_definitions_closeGroups _ _ _ _).sound hclose h.macros
    exact ⟨⟨hc, by simp, fun _ => rfl⟩, .inr ⟨_, rfl, hf.eof, rfl⟩⟩

end Preprocessor

/-! ## Runs -/

namespace Joiner

/-- The joiner holds nothing but strings. -/
def HoldsStrings (j : Joiner) : Prop :=
  ∀ s ∈ j.held, s.kind = .string

/-- What strings are joined to is a string, and nothing more is asked of it. -/
private theorem sound_joinRun {held : List Token} (h : ∀ s ∈ held, s.kind = .string) :
    AllSound (joinRun held) := by
  unfold joinRun
  split
  · exact allSound_nil
  · rename_i s
    exact allSound_cons.2 ⟨Token.sound_of_string (h s (by simp)), allSound_nil⟩
  · rename_i s more _
    have hkind := h s (by simp)
    exact allSound_cons.2 ⟨Token.sound_of_string hkind, allSound_nil⟩

/-- What is held back is sound. -/
theorem HoldsStrings.sound_flush {j : Joiner} (h : j.HoldsStrings) : AllSound j.flush :=
  sound_joinRun fun s hs => h s (List.mem_reverse.1 hs)

/-- A sound token is held back if it is a string, and otherwise settles what was. -/
theorem HoldsStrings.push {j : Joiner} (h : j.HoldsStrings) {t : Token} (ht : t.Sound) :
    AllSound (j.push t).1 ∧ (j.push t).2.HoldsStrings := by
  unfold Joiner.push
  split
  · rename_i hstring
    have hkind : t.kind = .string := by simpa using (Bool.and_eq_true_iff.1 hstring).1
    exact ⟨allSound_nil, List.forall_mem_cons.2 ⟨hkind, h⟩⟩
  · exact ⟨allSound_append.2 ⟨h.sound_flush, allSound_cons.2 ⟨ht, allSound_nil⟩⟩, by
      simp [HoldsStrings]⟩

/-- Sound tokens stay sound when strings are joined. -/
theorem HoldsStrings.pushAll {j : Joiner} (h : j.HoldsStrings) {out ts : List Token}
    (hout : AllSound out) (hts : AllSound ts) :
    AllSound (j.pushAll out ts).1 ∧ (j.pushAll out ts).2.HoldsStrings := by
  induction ts generalizing j out with
  | nil => exact ⟨hout, h⟩
  | cons t ts ih =>
    obtain ⟨ht, hmore⟩ := allSound_cons.1 hts
    obtain ⟨hpushed, hheld⟩ := h.push ht
    exact ih hheld (allSound_append.2 ⟨hpushed.reverse, hout⟩) hmore

end Joiner

namespace Preprocessor

/-- Sound tokens, with or without an end token behind them. -/
def Ends (ts : List Token) : Prop :=
  ∃ body, AllSound body ∧ (ts = body ∨ ∃ eof, eof.kind = .eof ∧ ts = body ++ [eof])

/-- A run that has ended takes no further step. -/
private theorem step_of_ended {p : Preprocessor} (hfiles : p.files = [])
    (hstage : p.stage = .ended) : p.step = .done p := by
  unfold step
  simp only [hfiles, hstage]

/-- Nothing comes after the end token that ends the run; it settles the literals that wait. -/
theorem runFrom_of_ended {p : Preprocessor} (hfiles : p.files = []) (hstage : p.stage = .ended)
    {t : Token} (hkind : t.kind = .eof) (j : Joiner) (out : List Token) :
    p.runFrom (j.pushAll out [t]).2 (j.pushAll out [t]).1 =
      ⟨out.reverse ++ j.flush ++ [t], none, p⟩ := by
  have hpush : j.push t = (j.flush ++ [t], {}) := by simp [Joiner.push, Joiner.flush, hkind]
  have hjoined : j.pushAll out [t] = ((j.flush ++ [t]).reverse ++ out, {}) := by
    show ((j.push t).1.reverse ++ out, (j.push t).2) = _
    rw [hpush]
  rw [runFrom_of_done (step_of_ended hfiles hstage), hjoined]
  simp [Joiner.flush, joinRun]

/-- A run that is sound gives sound tokens up to the end token, which is the last. -/
theorem Sound.runFrom {p : Preprocessor} (h : p.Sound) {j : Joiner} (hj : j.HoldsStrings)
    {out : List Token} (hout : AllSound out) : Ends (p.runFrom j out).tokens := by
  fun_induction Preprocessor.runFrom p j out with
  | case1 p j out q hstep =>
    exact ⟨_, allSound_append.2 ⟨hout.reverse, hj.sound_flush⟩, .inl rfl⟩
  | case2 p j out e q hstep => exact ⟨_, hout.reverse, .inl rfl⟩
  | case3 p j out q ts hstep joined ih =>
    obtain ⟨hq, hgives⟩ := h.advance (advance_of_step hstep)
    cases hgives with
    | inl hts =>
      obtain ⟨hsettled, hheld⟩ := hj.pushAll hout hts
      exact ih hq hheld hsettled
    | inr hend =>
      -- This was the end token, so the run is over.
      obtain ⟨t, rfl, hkind, hstage⟩ := hend
      have hlast := runFrom_of_ended (hq.ended hstage) hstage hkind j out
      refine ⟨out.reverse ++ j.flush, allSound_append.2 ⟨hout.reverse, hj.sound_flush⟩,
        .inr ⟨t, hkind, ?_⟩⟩
      show (q.runFrom (j.pushAll out [t]).2 (j.pushAll out [t]).1).tokens = _
      rw [hlast]

/-- A run is sound before it has been started. -/
theorem sound_ofConfig (config : Config) (disk : Disk) (now : Clock) (nesting : Nat) :
    (ofConfig config disk now nesting).Sound where
  macros := Context.sound_start config now
  files := by simp [ofConfig]
  ended := fun _ => rfl

/-- The tokens of a run are sound up to the end token, which is the last. -/
theorem ends_runText (config : Config) (disk : Disk) (now : Clock) (nesting : Nat) (file : String)
    (text : List Char) : Ends ((ofConfig config disk now nesting).runText file text).tokens := by
  have hp := sound_ofConfig config disk now nesting
  show Ends (runFrom _ {} []).tokens
  apply Sound.runFrom _ _ allSound_nil
  · exact ⟨hp.macros, hp.files, fun hended => by cases hended⟩
  · simp [Joiner.HoldsStrings]

/-- Without the end token, the tokens of a run are those before it. -/
theorem Ends.filter_eq {ts : List Token} (h : Ends ts) :
    ts.takeWhile (·.kind ≠ .eof) = ts.filter (·.kind ≠ .eof) ∧
      AllSound (ts.filter (·.kind ≠ .eof)) := by
  obtain ⟨body, hbody, hts⟩ := h
  have hall : ∀ t ∈ body, decide (t.kind ≠ .eof) = true :=
    fun t ht => decide_eq_true (hbody t ht).kind
  have hfilter : body.filter (·.kind ≠ .eof) = body := List.filter_eq_self.2 hall
  -- Behind the sound tokens there is at most the end token.
  obtain ⟨rest, rfl, htake, hdrop⟩ : ∃ rest, ts = body ++ rest ∧
      rest.takeWhile (·.kind ≠ .eof) = [] ∧ rest.filter (·.kind ≠ .eof) = [] := by
    rcases hts with rfl | ⟨eof, hkind, rfl⟩
    · exact ⟨[], by simp, rfl, rfl⟩
    · exact ⟨[eof], rfl, by simp [hkind], by simp [hkind]⟩
  rw [List.takeWhile_append_of_pos hall, htake, List.filter_append, hfilter, hdrop,
    List.append_nil]
  exact ⟨rfl, hbody⟩

end Preprocessor

/-- The text that is written for the tokens of a run, with no unknown token and no raw string among
them, is read as these tokens just if every string is closed and no token sticks to what is written
behind it. -/
theorem relex_layout_run_iff (config : Config) (disk : Disk) (now : Clock) (nesting : Nat)
    (file : String) (text : List Char) :
    let run := (Preprocessor.ofConfig config disk now nesting).runText file text
    let ts := run.tokens.filter (·.kind ≠ .eof)
    (∀ t ∈ ts, t.kind ≠ .unknown ∧ (t.kind = .string → t.isRaw = false)) →
      ((relex (layout run.tokens).toList).value.map (fun t => (t.kind, t.value)) =
          ts.map (fun t => (t.kind, t.value)) ↔
        (∀ t ∈ ts, t.kind = .string → Spelled .string t.value.toList ∧ '\r' ∉ t.value.toList) ∧
          loose ts = true) := by
  intro run ts hplain
  obtain ⟨htake, hsound⟩ := (Preprocessor.ends_runText config disk now nesting file text).filter_eq
  have hiff := @relex_layout_iff run.tokens
  rw [htake] at hiff
  refine (hiff hplain).trans (and_congr_left fun _ => ?_)
  constructor
  · intro h t ht hstring
    exact hstring ▸ h t ht
  · intro h t ht
    -- Of a string it is asked, and any other token is sound.
    by_cases hstring : t.kind = .string
    · rw [hstring]
      exact h t ht hstring
    · exact (hsound t ht).spelled hstring (hplain t ht).1

/-! ## Two runs -/

namespace Output

/-- A text in which a macro without tokens stands between two signs. -/
def between : List Char := "#define E\n+E+\n".toList

/-- A text in which tokens are written side by side. -/
def beside : List Char := "#define S(x) #x\nS(\"q\" b)1-x<y\n".toList

end Output

open Output in
/-- Where a macro without tokens stood between two signs, they are written as one. -/
theorem not_relex_layout_between :
    let run := Preprocessor.bare.runText "t.c" between
    let ts := run.tokens.filter (·.kind ≠ .eof)
    run.failure = none ∧ (∀ t ∈ ts, t.kind ≠ .unknown ∧ (t.kind = .string → t.isRaw = false)) ∧
      ¬(relex (layout run.tokens).toList).value.map (fun t => (t.kind, t.value)) =
        ts.map (fun t => (t.kind, t.value)) := by
  -- The run is computed with a bound on its steps.
  have hrun : (Preprocessor.bare.runTextWithin 8 "t.c" between).any (fun run =>
      run.failure = none ∧
      (∀ t ∈ run.tokens.filter (·.kind ≠ .eof),
        t.kind ≠ .unknown ∧ (t.kind = .string → t.isRaw = false)) ∧
      ¬(relex (layout run.tokens).toList).value.map (fun t => (t.kind, t.value)) =
        (run.tokens.filter (·.kind ≠ .eof)).map (fun t => (t.kind, t.value))) = true := by
    decide +kernel
  obtain ⟨f, hf, hall⟩ := (Option.any_eq_true _ _).1 hrun
  rw [Preprocessor.runText_of_runTextWithin hf]
  exact of_decide_eq_true hall

open Output in
/-- Tokens that do not stick are read again, though nothing separates them. -/
theorem relex_layout_run_beside :
    let run := Preprocessor.bare.runText "t.c" beside
    let ts := run.tokens.filter (·.kind ≠ .eof)
    ((∀ t ∈ ts, t.kind ≠ .unknown ∧ (t.kind = .string → t.isRaw = false)) ∧
      layout run.tokens = "\"\\\"q\\\" b\"1-x<y\n") ∧
    (relex (layout run.tokens).toList).value.map (fun t => (t.kind, t.value)) =
      ts.map (fun t => (t.kind, t.value)) := by
  intro run ts
  have hwithin : (Preprocessor.bare.runTextWithin 8 "t.c" beside).any (fun run =>
      ((∀ t ∈ run.tokens.filter (·.kind ≠ .eof),
        t.kind ≠ .unknown ∧ (t.kind = .string → t.isRaw = false)) ∧
      layout run.tokens = "\"\\\"q\\\" b\"1-x<y\n") ∧
      (∀ t ∈ run.tokens.filter (·.kind ≠ .eof), t.kind = .string → t.value = "\"\\\"q\\\" b\"") ∧
      loose (run.tokens.filter (·.kind ≠ .eof)) = true) = true := by
    decide +kernel
  obtain ⟨f, hf, hall⟩ := (Option.any_eq_true _ _).1 hwithin
  have hrun : run = f := Preprocessor.runText_of_runTextWithin hf
  obtain ⟨hlook, hstrings, hloose⟩ := of_decide_eq_true hall
  -- The joined literal has its quotes in place.
  have hclosed : Spelled .string "\"\\\"q\\\" b\"".toList :=
    @Spelled.literal .string "" '"' "\\\"q\\\" b\"".toList rfl (by decide) (by decide) (by decide)
  rw [← hrun] at hlook hstrings hloose
  have hread := relex_layout_run_iff {} _ _ _ "t.c" beside hlook.1
  refine ⟨hlook, hread.2 ⟨fun t ht hstring => ?_, hloose⟩⟩
  rw [hstrings t ht hstring]
  exact ⟨hclosed, by decide⟩

end Preproc
