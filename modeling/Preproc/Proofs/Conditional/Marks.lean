import Preproc.Proofs.Preprocessor.Directives

/-!
# The words that open and close groups

How the groups of a file match can be read from the first word of each of its directives: a mark
opens a group, continues one or closes one, and a counter tells how many groups are open. This
module says which problems follow from the marks of a file (`imbalances`), and that each directive
reports what its mark says and counts as its mark says.

A line is read in one of two ways, depending on whether it stands in skipped code. Both find the
same mark, because the forms with a mark are read everywhere, before all others, and are never
refused.

## Key results

- `mark_of_heeded`, `mark_of_unheeded`: the mark of a line does not depend on how it is read
- `tallies_carryOut`: a directive with a mark reports and counts as its mark says
- `settles_directive`: what a line reports, and what is due after it, was due before it
-/

namespace Preproc

/-! ## Marks and what follows from them -/

/-- What a line does to the groups of its file. -/
inductive Mark where
  | opens
  /-- A further branch of a group starts; the word is the one that says so. -/
  | continues (word : String)
  | closes
deriving DecidableEq, Repr

namespace Mark

/-- The mark that the word of a directive is. -/
def ofWord? (word : String) : Option Mark :=
  if ["if", "ifdef", "ifndef"].contains word then some .opens
  else if ["elif", "elifdef", "elifndef", "else"].contains word then some (.continues word)
  else if word = "endif" then some .closes
  else none

/-- How many groups are open after a mark, if `n` were. -/
def after (n : Nat) : Mark → Nat
  | opens => n + 1
  | continues _ => n
  | closes => n - 1

/-- The problem with a mark, if `n` groups are open. -/
def problem? (n : Nat) : Mark → Option Problem
  | opens => none
  | continues word => if n = 0 then some (.withoutIf word) else none
  | closes => if n = 0 then some (.withoutIf "endif") else none

end Mark

/-- The mark of a line. -/
def mark? : List Token → Option Mark
  | hash :: word :: _ => if hash.isHash && word.isName then Mark.ofWord? word.value else none
  | _ => none

/-- The marks among some lines, each with the number of its physical line. -/
def marks (lines : List (List Token)) : List (Nat × Mark) :=
  lines.filterMap fun line => (mark? line).map fun m => (line.head?.elim 0 (·.line), m)

/-- The problems with the marks of a file in which `n` groups are open; `last` is the line at which
the file ends. -/
def imbalances (file : String) (last : Nat) : Nat → List (Nat × Mark) → List Diagnostic
  | n, [] => if n = 0 then [] else [⟨file, last, .unterminated n⟩]
  | n, (line, m) :: ms =>
    ((m.problem? n).map (⟨file, line, ·⟩)).toList ++ imbalances file last (m.after n) ms

/-- The marks among some lines are those of the first line, and then those of the others. -/
theorem marks_cons (line : List Token) (lines : List (List Token)) :
    marks (line :: lines) = marks [line] ++ marks lines := by
  unfold marks
  rw [← List.filterMap_append, List.singleton_append]

/-- A line without a mark adds none. -/
theorem marks_of_mark?_eq_none {line : List Token} (h : mark? line = none) : marks [line] = [] := by
  simp [marks, h]

private theorem marks_of_mark?_eq_some {line : List Token} {m : Mark} (h : mark? line = some m) :
    marks [line] = [(line.head?.elim 0 (·.line), m)] := by
  simp [marks, h]

/-- A line of text has no mark. -/
theorem mark?_of_text {line : List Token} (h : line.head?.any Token.isHash = false) :
    mark? line = none := by
  unfold mark?
  split
  · rename_i hash word rest
    simp only [List.head?_cons, Option.any_some] at h
    simp [h]
  · rfl

/-! ## Reading marks -/

namespace Production

/-- The directive that a form is read as goes by the word of the form. -/
theorem label_of_readOperands {p : Production} {line rest last : List Token} {word : Token}
    {d : Directive} (h : (p.readOperands line word rest).value = some (d, last)) :
    d.label = p.label := by
  cases p with
  | define =>
    simp only [readOperands] at h
    split at h
    · cases h
      rfl
    · cases h
  | undef =>
    simp only [readOperands] at h
    split at h
    · rename_i t last'
      cases hname : t.isName with
      | true =>
        rw [hname] at h
        cases h
        rfl
      | false =>
        rw [hname] at h
        cases h
    · cases h
  | inclusion =>
    -- All other forms are taken as they stand.
    obtain ⟨⟨target, last'⟩, -, h⟩ := Option.map_eq_some_iff.1 h
    cases h
    rfl
  | _ =>
    cases h
    rfl

/-- A form with a mark is never refused, whatever follows its word. -/
private theorem readOperands_of_mark {p : Production} (h : (Mark.ofWord? p.label).isSome = true)
    (line : List Token) (word : Token) (rest : List Token) :
    (p.readOperands line word rest).value.isSome = true := by
  cases p with
  -- The four forms that can be refused have no mark.
  | define => exact absurd h (by decide)
  | undef => exact absurd h (by decide)
  | inclusion => exact absurd h (by decide)
  | pragma => exact absurd h (by decide)
  | _ => rfl

/-- All words of a form are the same mark, or none. -/
private theorem mark_of_mem_words {p : Production} {word : String} (h : word ∈ p.words) :
    Mark.ofWord? word = Mark.ofWord? p.label := by
  cases p with
  | inclusion =>
    -- Only inclusions have more than one word, and none of them is a mark.
    simp only [words, List.mem_cons, List.not_mem_nil, or_false] at h
    rcases h with rfl | rfl | rfl
    · rfl
    · decide
    · decide
  | _ =>
    rw [List.mem_singleton.1 h]
    rfl

end Production

/-- Every mark has a form, which is read everywhere. -/
private theorem Mark.exists_production {word : String} (h : (Mark.ofWord? word).isSome = true) :
    ∃ p ∈ conditionalProductions, word ∈ p.words := by
  unfold Mark.ofWord? at h
  split at h
  · rename_i hopens
    simp only [List.contains_eq_mem, List.mem_cons, List.not_mem_nil, or_false,
      decide_eq_true_eq] at hopens
    rcases hopens with rfl | rfl | rfl
    · exact ⟨.ifTrue, by decide, by decide⟩
    · exact ⟨.ifdef, by decide, by decide⟩
    · exact ⟨.ifndef, by decide, by decide⟩
  · split at h
    · rename_i hcontinues
      simp only [List.contains_eq_mem, List.mem_cons, List.not_mem_nil, or_false,
        decide_eq_true_eq] at hcontinues
      rcases hcontinues with rfl | rfl | rfl | rfl
      · exact ⟨.elifTrue, by decide, by decide⟩
      · exact ⟨.elifdef, by decide, by decide⟩
      · exact ⟨.elifndef, by decide, by decide⟩
      · exact ⟨.otherwise, by decide, by decide⟩
    · split at h
      · rename_i hcloses
        -- The only mark left is the one that closes a group.
        exact ⟨.endif, by decide, by rw [hcloses]; decide⟩
      · cases h

/-- A directive is read by one of the forms, or all of them refuse it. -/
theorem readDirective_cases (line rest : List Token) (ps : List Production) :
    (∃ p ∈ ps, (p.read? line rest).value = some (readDirective line rest ps).value) ∨
      (∀ p ∈ ps, (p.read? line rest).value = none) ∧
        (readDirective line rest ps).value = (.other, rest) := by
  induction ps with
  -- Without a form left, the line is some other directive.
  | nil => exact .inr ⟨(fun p hp => nomatch hp), rfl⟩
  | cons p ps ih =>
    rw [readDirective, Noted.value_bind]
    cases hread : (p.read? line rest).value with
    | some taken =>
      obtain ⟨d, last⟩ := taken
      refine .inl ⟨p, List.mem_cons_self, ?_⟩
      rw [hread]
      simp only
      split <;> rfl
    | none =>
      cases ih with
      | inl htaken =>
        obtain ⟨p', hp', htaken⟩ := htaken
        exact .inl ⟨p', List.mem_cons_of_mem p hp', htaken⟩
      | inr hrefused => exact .inr ⟨List.forall_mem_cons.2 ⟨hread, hrefused.1⟩, hrefused.2⟩

/-- The directive that is read has the mark of the word with which it starts. -/
private theorem mark_of_readDirective {line rest : List Token} {word : Token} {ps : List Production}
    (hps : conditionalProductions ⊆ ps) :
    Mark.ofWord? (readDirective line (word :: rest) ps).value.1.label =
      if word.isName then Mark.ofWord? word.value else none := by
  cases readDirective_cases line (word :: rest) ps with
  | inl htaken =>
    obtain ⟨p, -, htaken⟩ := htaken
    rw [Production.read?] at htaken
    split at htaken
    · rename_i hword
      rw [Bool.and_eq_true, List.contains_iff_mem] at hword
      -- The label of what is read and the word on the line are words of one form.
      rw [Production.label_of_readOperands htaken, if_pos hword.1,
        Production.mark_of_mem_words hword.2]
    · cases htaken
  | inr hrefused =>
    obtain ⟨hrefused, hother⟩ := hrefused
    rw [hother]
    show none = _
    cases hname : word.isName with
    | false => rfl
    | true =>
      rw [if_pos rfl]
      cases hmark : Mark.ofWord? word.value with
      | none => rfl
      | some m =>
        -- A form for the word would have taken the line.
        obtain ⟨p, hp, hword⟩ := Mark.exists_production (by rw [hmark]; rfl)
        have htakes := hrefused p (hps hp)
        rw [Production.read?, if_pos (by rw [hname, List.contains_iff_mem.2 hword]; rfl)] at htakes
        have hpmark : (Mark.ofWord? p.label).isSome = true := by
          rw [← Production.mark_of_mem_words hword, hmark]
          rfl
        have hsome := Production.readOperands_of_mark hpmark line word rest
        rw [htakes] at hsome
        cases hsome

/-- Both ways of reading a line find its mark. -/
theorem mark_of_parseLine {skipping : Bool} {line rest : List Token} {d : DirectiveLine}
    (h : (parseLine skipping line).value = .ok (d, rest)) :
    Mark.ofWord? d.directive.label = mark? line := by
  unfold parseLine parseLineWith at h
  generalize hps : (if skipping then conditionalProductions
    else conditionalProductions ++ otherProductions) = ps at h
  -- Skipped or not, a line is read by all forms that have a mark.
  have hsubset : conditionalProductions ⊆ ps := by
    cases skipping with
    | true => exact fun p hp => hps ▸ hp
    | false => exact fun p hp => hps ▸ List.mem_append_left _ hp
  split at h
  · cases h
  · rename_i t ts
    split at h
    · rename_i hhash
      cases h
      cases ts with
      | nil =>
        -- A lone `#` has no word, so no form takes it.
        cases readDirective_cases [t] [] ps with
        | inl htaken =>
          obtain ⟨p, -, htaken⟩ := htaken
          cases htaken
        | inr hrefused =>
          show Mark.ofWord? (readDirective [t] [] ps).value.1.label = none
          rw [hrefused.2]
          rfl
      | cons word rest =>
        show Mark.ofWord? (readDirective _ (word :: rest) ps).value.1.label = _
        rw [mark_of_readDirective hsubset, mark?, hhash, Bool.true_and]
    · cases h

/-- The conditional directives are those with a mark. -/
theorem Directive.isConditional_eq (d : Directive) :
    d.isConditional = (Mark.ofWord? d.label).isSome := by
  cases d <;> rfl

namespace Context

/-- A line that counts has the mark of the directive it is read as. -/
theorem mark_of_heeded {c : Context} {line : List Token} {d : DirectiveLine}
    (h : c.heeded? line = some d) : Mark.ofWord? d.directive.label = mark? line := by
  unfold heeded? at h
  split at h
  · cases h
  · rename_i d' rest hread
    split at h
    · cases h
    · cases h
      exact mark_of_parseLine hread

/-- A line that does not count has no mark. -/
theorem mark_of_unheeded {c : Context} {line : List Token} (h : c.heeded? line = none) :
    mark? line = none := by
  unfold heeded? at h
  split at h
  · rename_i e hread
    -- A line that starts with `#` can always be read.
    apply mark?_of_text
    unfold parseLine parseLineWith at hread
    split at hread
    · rfl
    · rename_i t ts
      split at hread
      · cases hread
      · rename_i hhash
        simpa using hhash
  · rename_i d rest hread
    split at h
    · -- The line is skipped, and only conditional directives count there.
      rename_i hskipped
      rw [Bool.and_eq_true, Bool.not_eq_true', Directive.isConditional_eq] at hskipped
      rw [← mark_of_parseLine hread]
      exact Option.isNone_iff_eq_none.1 (by simpa using hskipped.2)
    · cases h

/-! ## Problems with groups -/

/-- From `c` to `c'` problems are reported; those with groups are `ds`. -/
def Adds (ds : List Diagnostic) (c c' : Context) : Prop :=
  ∃ new, c'.diagnostics = c.diagnostics ++ new ∧
    new.filter (fun d => d.problem.topic = .conditional) = ds

/-- The problems with groups that two actions report are reported by one after the other. -/
theorem Adds.trans {ds ds' : List Diagnostic} {c c₁ c₂ : Context} (h : Adds ds c c₁)
    (h' : Adds ds' c₁ c₂) : Adds (ds ++ ds') c c₂ := by
  obtain ⟨new, hnew, rfl⟩ := h
  obtain ⟨new', hnew', rfl⟩ := h'
  refine ⟨new ++ new', ?_, List.filter_append ..⟩
  rw [hnew', hnew, List.append_assoc]

/-- If no problem is reported, then none with groups is. -/
theorem adds_nil {c c' : Context} (h : c'.diagnostics = c.diagnostics) : Adds [] c c' :=
  ⟨[], by rw [h, List.append_nil], rfl⟩

private theorem adds_singleton {c c' : Context} {d : Diagnostic}
    (hd : d.problem.topic = .conditional) (h : c'.diagnostics = c.diagnostics ++ [d]) :
    Adds [d] c c' :=
  ⟨[d], h, by simp [hd]⟩

/-- An action that reports no problem with groups. -/
def Mute {α : Type} (act : ContextM α) : Prop :=
  ∀ ⦃c : Context⦄ ⦃a : α⦄ ⦃c' : Context⦄, act c = .ok a c' → Adds [] c c'

section Mute

variable {α β : Type}

/-- An action that reports nothing reports no problem with groups. -/
theorem Keeps.mute {act : ContextM α} (h : Keeps Context.diagnostics act) : Mute act :=
  fun _ _ _ hok => adds_nil (h hok)

/-- Actions that report no problem with groups can be put one after the other. -/
theorem Mute.bind {x : ContextM α} {f : α → ContextM β} (hx : Mute x) (hf : ∀ a, Mute (f a)) :
    Mute (x >>= f) := by
  intro c b c' h
  obtain ⟨a, c₁, h₁, h₂⟩ := ContextM.bind_eq_ok_iff.1 h
  exact (hx h₁).trans (hf a h₂)

theorem mute_pure (a : α) : Mute (pure a : ContextM α) :=
  (keeps_pure a).mute

theorem mute_throw (e : Failure) : Mute (throw e : ContextM α) :=
  (keeps_throw e).mute

private theorem mute_note (n : Note) : Mute (note n) :=
  (aloof_diagnostics.note n).mute

/-- A problem with an inclusion is none with groups. -/
private theorem mute_report {d : Diagnostic} (h : d.problem.topic = .inclusion) :
    Mute (report d) := by
  intro c a c' hok
  cases hok
  exact ⟨[d], rfl, by simp [h]⟩

private theorem mute_remark {d : Diagnostic} (h : d.problem.topic = .inclusion) : Mute (remark d) :=
  (mute_note _).bind fun _ => mute_report h

end Mute

private theorem composes_mute : Composes fun _ act => Mute act :=
  ⟨mute_pure, mute_throw, Mute.bind⟩

private theorem mute_missingHeader (env : Environment) {d : Diagnostic}
    (h : d.problem.topic = .inclusion) (spelling : String) :
    Mute (missingHeader env d spelling) :=
  composes_mute.missingHeader (mute_note _) (mute_report h)

/-- Looking for a header reports problems with inclusions only. -/
private theorem mute_inclusion? (env : Environment) (d : DirectiveLine) (target : IncludeTarget)
    (once : Bool) : Mute (inclusion? env d target once) :=
  composes_mute.inclusion? (fun _ => (keeps_expand _ _ _).mute) mute_note
    (fun _ => (keeps_findHeader _ _ _).mute) (fun _ => mute_missingHeader _ rfl _) target once

private theorem mute_reading (env : Environment) (opened : Nat) (i : Inclusion) :
    Mute (reading env opened i) :=
  composes_mute.reading (fun _ => mute_remark rfl) (mute_remark rfl)

/-- Marking a header to be read only once reports nothing. -/
private theorem keeps_markOnce (env : Environment) (file : String) :
    Keeps Context.diagnostics (markOnce env file) := by
  intro c a c' h
  cases h
  rfl

/-- Entering a header, or passing over it, reports no problem with groups. -/
theorem mute_including (env : Environment) (opened : Nat) (i : Inclusion) :
    Mute (including env opened i) := by
  refine (keeps_enters (keeps_markOnce env i.path)).mute.bind fun b => ?_
  cases b with
  | true => exact mute_reading env opened i
  | false => exact mute_pure none

private theorem keeps_test (env : Environment) (file : String) (condition : List Token) :
    Keeps Context.diagnostics (test env file condition) :=
  aloof_diagnostics.test (diagnostics_answerQueries env file) (keeps_expand env true) condition

/-! ## Counting groups -/

/-- Opening a group makes one more. -/
private theorem depth_of_openGroup {condition : ContextM Bool} (hlooks : LooksOnly condition)
    {c c' : Context} (h : openGroup condition c = .ok () c') :
    c'.conditionals.depth = c.conditionals.depth + 1 := by
  rw [openGroup_eq] at h
  obtain ⟨holds, c₁, htest, h⟩ := ContextM.bind_eq_ok_iff.1 h
  cases h
  show (c₁.conditionals.openGroup holds).depth = _
  rw [(hlooks.ite _ htest).conditionals]
  rfl

/-- A change of the open groups changes their number as it says. -/
private theorem depth_of_setConditionals (next : Conditionals → Option (Noted Conditionals))
    (count : Nat → Nat) (hnext : ∀ x y, next x = some y → y.value.depth = count x.depth)
    (hnone : ∀ x, next x = none → count x.depth = x.depth) {c c' : Context}
    (h : (do setConditionals (next (← get).conditionals)) c = .ok () c') :
    c'.conditionals.depth = count c.conditionals.depth := by
  rw [ContextM.get_bind] at h
  cases hy : next c.conditionals with
  -- There is no group to change.
  | none =>
    rw [hy] at h
    cases h
    exact (hnone _ hy).symm
  | some y =>
    rw [hy] at h
    cases h
    exact hnext _ _ hy

/-- A further branch leaves the number of groups. -/
private theorem depth_of_elifBranch {condition : ContextM Bool} (hlooks : LooksOnly condition)
    {c c' : Context} (h : elifBranch condition c = .ok () c') :
    c'.conditionals.depth = c.conditionals.depth := by
  rw [elifBranch_eq] at h
  obtain ⟨holds, c₁, htest, h⟩ := ContextM.bind_eq_ok_iff.1 h
  -- Testing the condition leaves the groups.
  rw [← (hlooks.ite _ htest).conditionals]
  refine depth_of_setConditionals (·.elif? holds) id (fun x y hxy => ?_) (fun _ _ => rfl) h
  unfold Conditionals.elif? at hxy
  split at hxy
  · cases hxy
  · rename_i g gs hx
    cases hxy
    show (_ :: gs).length = x.groups.length
    rw [hx]
    rfl

/-- The last branch leaves the number of groups. -/
private theorem depth_of_otherwise {c c' : Context}
    (h : (do setConditionals (← get).conditionals.otherwise?) c = .ok () c') :
    c'.conditionals.depth = c.conditionals.depth := by
  refine depth_of_setConditionals (·.otherwise?) id (fun x y hxy => ?_) (fun _ _ => rfl) h
  -- The innermost group is replaced by another.
  unfold Conditionals.otherwise? at hxy
  split at hxy
  · cases hxy
  · rename_i g gs hx
    cases hxy
    show (_ :: gs).length = x.groups.length
    rw [hx]
    rfl

/-- Closing a group makes one fewer, and none of none. -/
private theorem depth_of_endif {c c' : Context}
    (h : (do setConditionals ((← get).conditionals.endif?.map fun c => ⟨c, []⟩)) c = .ok () c') :
    c'.conditionals.depth = c.conditionals.depth - 1 := by
  refine depth_of_setConditionals (·.endif?.map fun c => ⟨c, []⟩) (· - 1) (fun x y hxy => ?_)
    (fun x hx => ?_) h
  · unfold Conditionals.endif? at hxy
    split at hxy
    · cases hxy
    · rename_i g gs hx
      cases hxy
      show gs.length = x.groups.length - 1
      rw [hx]
      rfl
  · unfold Conditionals.endif? at hx
    split at hx
    · -- Without an open group there is nothing to close, and subtraction stops at zero.
      rename_i hnil
      show x.groups.length - 1 = x.groups.length
      rw [hnil]
      rfl
    · cases hx

/-- A directive that continues or closes a group does so if one was opened in its file; if not, it
is reported and changes nothing. -/
private theorem of_closing {env : Environment} (hrecovers : env.config.errorRecovery = true)
    {base : Nat} {d : DirectiveLine} {act : ContextM Unit} {c c' : Context} {r : Option Inclusion}
    (h : (do
      if ← closesGroup env base d then act
      pure none) c = .ok r c') :
    base < c.conditionals.depth ∧ act c = .ok () c' ∨
      c.conditionals.depth ≤ base ∧ c'.conditionals = c.conditionals ∧
        c'.diagnostics = c.diagnostics ++ [⟨d.file, d.line, .withoutIf d.directive.label⟩] := by
  -- The directive asks first whether a group was opened in its own file.
  obtain ⟨b, c₁, hcloses, h⟩ := ContextM.bind_eq_ok_iff.1 h
  unfold closesGroup at hcloses
  rw [ContextM.get_bind] at hcloses
  by_cases hdepth : base < c.conditionals.depth
  · rw [if_pos hdepth] at hcloses
    cases hcloses
    obtain ⟨_, c₂, hact, h⟩ := ContextM.bind_eq_ok_iff.1 h
    cases h
    exact .inl ⟨hdepth, hact⟩
  · rw [if_neg hdepth] at hcloses
    unfold unbalanced at hcloses
    rw [hrecovers] at hcloses
    cases hcloses
    cases h
    exact .inr ⟨Nat.le_of_not_lt hdepth, rfl, rfl⟩

/-- The directive `d` reports and counts as the mark `m` says, in a file with `n` open groups on top
of `base`. -/
structure Tallies (base n : Nat) (d : DirectiveLine) (m : Mark) (c c' : Context) : Prop where
  adds : Adds ((m.problem? n).map (⟨d.file, d.line, ·⟩)).toList c c'
  depth : c'.conditionals.depth = base + m.after n

/-- A directive that opens a group reports and counts as its mark says. -/
private theorem tallies_opens {base n : Nat} {d : DirectiveLine} {condition : ContextM Bool}
    (hlooks : LooksOnly condition) (hkeeps : Keeps Context.diagnostics condition)
    {c c' : Context} {r : Option Inclusion} (hn : c.conditionals.depth = base + n)
    (h : (do
      openGroup condition
      pure none) c = .ok r c') : Tallies base n d .opens c c' := by
  obtain ⟨_, c₁, hopen, h⟩ := ContextM.bind_eq_ok_iff.1 h
  cases h
  refine ⟨adds_nil (aloof_diagnostics.openGroup hkeeps hopen), ?_⟩
  rw [depth_of_openGroup hlooks hopen, hn]
  rfl

/-- A directive that continues or closes a group is reported if no group is open in its file. If
one is, then what counts is what the directive does to the open groups. -/
private theorem tallies_closing {env : Environment} (hrecovers : env.config.errorRecovery = true)
    {base n : Nat} {d : DirectiveLine} {m : Mark} {act : ContextM Unit}
    (hproblem : ∀ n, m.problem? n = if n = 0 then some (.withoutIf d.directive.label) else none)
    (hzero : m.after 0 = 0) (hkeeps : Keeps Context.diagnostics act)
    (hcount : ∀ ⦃c c' : Context⦄, act c = .ok () c' →
      c'.conditionals.depth = m.after c.conditionals.depth)
    {c c' : Context} {r : Option Inclusion} (hn : c.conditionals.depth = base + n)
    (h : (do
      if ← closesGroup env base d then act
      pure none) c = .ok r c') : Tallies base n d m c c' := by
  cases of_closing hrecovers h with
  -- The directive has a group in its file.
  | inl hplaced =>
    obtain ⟨hlt, hact⟩ := hplaced
    have hpos : n ≠ 0 := by omega
    constructor
    · rw [hproblem, if_neg hpos]
      exact adds_nil (hkeeps hact)
    · rw [hcount hact, hn]
      cases m <;> simp only [Mark.after] <;> omega
  -- It has none, which is reported.
  | inr hunplaced =>
    obtain ⟨hle, hsame, hreported⟩ := hunplaced
    have hnil : n = 0 := by omega
    subst hnil
    constructor
    · rw [hproblem, if_pos rfl]
      exact adds_singleton rfl hreported
    · rw [hsame, hn, hzero]

/-- A further branch with a condition reports and counts as its mark says. -/
private theorem tallies_elif {env : Environment} (hrecovers : env.config.errorRecovery = true)
    {base n : Nat} {d : DirectiveLine} {condition : ContextM Bool}
    (hlooks : LooksOnly condition) (hkeeps : Keeps Context.diagnostics condition)
    {c c' : Context} {r : Option Inclusion} (hn : c.conditionals.depth = base + n)
    (h : (do
      if ← closesGroup env base d then elifBranch condition
      pure none) c = .ok r c') : Tallies base n d (.continues d.directive.label) c c' := by
  refine tallies_closing hrecovers (fun _ => rfl) rfl ?_ (fun c c' hact => ?_) hn h
  · exact aloof_diagnostics.elifBranch hkeeps
  · exact depth_of_elifBranch hlooks hact

/-- A directive with a mark reports and counts as its mark says, whatever its condition. -/
theorem tallies_carryOut {env : Environment} (hrecovers : env.config.errorRecovery = true)
    {base n : Nat} {d : DirectiveLine} {m : Mark} (hm : Mark.ofWord? d.directive.label = some m)
    {c c' : Context} {r : Option Inclusion} (hn : c.conditionals.depth = base + n)
    (h : carryOut env base d c = .ok r c') : Tallies base n d m c c' := by
  have hconditional : d.directive.isConditional = true := by
    rw [Directive.isConditional_eq, hm]
    rfl
  obtain ⟨tokens, directive⟩ := d
  cases directive with
  | define => cases hconditional
  | undef => cases hconditional
  | inclusion => cases hconditional
  | pragma => cases hconditional
  | other => cases hconditional
  -- These open a group.
  | ifTrue condition =>
    cases hm
    exact tallies_opens (looksOnly_test _ _ _) (keeps_test _ _ _) hn h
  | ifdef name =>
    cases hm
    exact tallies_opens (looksOnly_nameTest _ _) (keeps_nameTest _ _) hn h
  | ifndef name =>
    cases hm
    exact tallies_opens (looksOnly_nameTest _ _) (keeps_nameTest _ _) hn h
  -- These go on with one, and look for it first.
  | elifTrue condition =>
    cases hm
    exact tallies_elif hrecovers (looksOnly_test _ _ _) (keeps_test _ _ _) hn h
  | elifdef name =>
    cases hm
    exact tallies_elif hrecovers (looksOnly_nameTest _ _) (keeps_nameTest _ _) hn h
  | elifndef name =>
    cases hm
    exact tallies_elif hrecovers (looksOnly_nameTest _ _) (keeps_nameTest _ _) hn h
  | otherwise =>
    cases hm
    refine tallies_closing hrecovers (fun _ => rfl) rfl ?_ (fun c c' hact => ?_) hn h
    · exact keeps_get.bind fun _ => aloof_diagnostics.setConditionals _
    · exact depth_of_otherwise hact
  | endif =>
    cases hm
    refine tallies_closing hrecovers (fun _ => rfl) rfl ?_ (fun c c' hact => ?_) hn h
    · exact keeps_get.bind fun _ => aloof_diagnostics.setConditionals _
    · exact depth_of_endif hact

/-- A directive without a mark reports no problem with groups and leaves them. -/
private theorem adds_carryOut {env : Environment} {base : Nat} {d : DirectiveLine}
    (hm : Mark.ofWord? d.directive.label = none) {c c' : Context} {r : Option Inclusion}
    (h : carryOut env base d c = .ok r c') : Adds [] c c' ∧ c'.conditionals = c.conditionals := by
  have hconditional : d.directive.isConditional = false := by
    rw [Directive.isConditional_eq, hm]
    rfl
  obtain ⟨tokens, directive⟩ := d
  cases directive with
  | define =>
    cases h
    exact ⟨adds_nil rfl, rfl⟩
  | undef =>
    cases h
    exact ⟨adds_nil rfl, rfl⟩
  | other =>
    cases h
    exact ⟨adds_nil rfl, rfl⟩
  | pragma args =>
    -- Whether a pragma is `once` or not, it changes neither.
    unfold carryOut at h
    simp only at h
    split at h
    · cases h
      exact ⟨adds_nil rfl, rfl⟩
    · cases h
      exact ⟨adds_nil rfl, rfl⟩
  | inclusion target once =>
    exact ⟨mute_inclusion? _ _ _ _ h, (looksOnly_inclusion? _ _ _ _ h).conditionals⟩
  | _ => cases hconditional

/-! ## Lines and the end of a file -/

/-- What a line that starts with `#` reports, and what is due after it, is what was due before it,
in a file with `n` open groups on top of `base`. -/
theorem settles_directive {env : Environment} (hrecovers : env.config.errorRecovery = true)
    {base n : Nat} {file : String} {line : List Token}
    (hfile : line.head?.elim "" (·.file) = file) {c c' : Context} {r : Option Inclusion}
    (hn : c.conditionals.depth = base + n) (h : directive env base line c = .ok r c') :
    ∃ ds n', Adds ds c c' ∧ c'.conditionals.depth = base + n' ∧ ∀ last ms,
      ds ++ imbalances file last n' ms = imbalances file last n (marks [line] ++ ms) := by
  cases hd : c.heeded? line with
  | none =>
    -- The line does not count: it has no mark, and nothing happens.
    obtain ⟨notes, hsame⟩ := directive_of_unheeded hd env base
    rw [hsame] at h
    cases h
    refine ⟨[], n, adds_nil rfl, hn, fun last ms => ?_⟩
    rw [marks_of_mark?_eq_none (mark_of_unheeded hd)]
    rfl
  | some d =>
    rw [directive_of_heeded hd] at h
    have hmark := mark_of_heeded hd
    cases hm : mark? line with
    | none =>
      -- The directive has no mark, so nothing is due to it.
      obtain ⟨hadds, hsame⟩ := adds_carryOut (hmark.trans hm) h
      refine ⟨[], n, hadds, ?_, fun last ms => ?_⟩
      · rw [hsame]
        exact hn
      · rw [marks_of_mark?_eq_none hm]
        rfl
    | some m =>
      -- The directive reports and counts as its mark says, which is how `imbalances` goes on.
      have hread : (c.afterReading line).conditionals.depth = base + n := hn
      have htallies := tallies_carryOut hrecovers (hmark.trans hm) hread h
      refine ⟨_, _, htallies.adds, htallies.depth, fun last ms => ?_⟩
      rw [marks_of_mark?_eq_some hm, DirectiveLine.file, DirectiveLine.line, tokens_of_heeded hd,
        hfile]
      rfl

/-- The end of a file reports what is due at it. -/
theorem adds_closeGroups {env : Environment} (hrecovers : env.config.errorRecovery = true)
    {file : String} {last base n : Nat} {c c' : Context} (hn : c.conditionals.depth = base + n)
    (h : closeGroups env file last base c = .ok () c') :
    Adds (imbalances file last n []) c c' := by
  have hclosed : (c.conditionals.truncate base).1 = n := by
    show c.conditionals.depth - base = n
    omega
  unfold closeGroups at h
  rw [ContextM.get_bind] at h
  simp only [hclosed] at h
  obtain ⟨_, c₁, hset, h⟩ := ContextM.bind_eq_ok_iff.1 h
  cases hset
  by_cases hzero : n = 0
  · -- All groups of the file are closed, so its end is silent.
    subst hzero
    cases h
    exact adds_nil rfl
  · rw [if_pos (Nat.pos_of_ne_zero hzero)] at h
    unfold unbalanced at h
    rw [hrecovers] at h
    cases h
    rw [imbalances, if_neg hzero]
    exact adds_singleton rfl rfl

end Context

end Preproc
