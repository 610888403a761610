import Preproc.Proofs.Expansion.Run

/-!
# Notes do not matter to an expansion

An expansion makes notes, but never looks at them: two states that are the same but for their notes
(`Expander.silent`) take the same steps and give the same result.

## Key results

- `silent_move`: the next token asks for the same
- `silent_replace`: an invocation is replaced by the same, if its arguments expand to the same
- `silent_expand`: an expansion gives the same, whatever has been noted before it
-/

namespace Preproc

/-! ## Forgetting notes -/

/-- The state without its notes. -/
def Expander.silent (x : Expander) : Expander :=
  { x with notes := #[] }

/-- The result, with the state in which it was reached without its notes. -/
def Expanded.silent {α : Type} : Expanded α → Expanded α
  | .ok a x => .ok a x.silent
  | .error e x => .error e x.silent

/-- What the next token asks for, with the state without its notes. -/
def Expander.Move.silent : Move → Move
  | .finish x => .finish x.silent
  | .emit t x => .emit t x.silent
  | .invoke m site args x => .invoke m site args x.silent

/-- Results that are the same but for the notes succeed together. -/
theorem Expanded.of_silent_ok {α : Type} {r : Expanded α} {a : α} {x : Expander}
    (h : r.silent = (Expanded.ok a x).silent) : ∃ y, r = .ok a y ∧ y.silent = x.silent := by
  cases r with
  | ok b y =>
    simp only [silent, ok.injEq] at h
    obtain ⟨rfl, hy⟩ := h
    exact ⟨y, rfl, hy⟩
  | error e y => cases h

/-- Results that are the same but for the notes fail together. -/
theorem Expanded.of_silent_error {α : Type} {r : Expanded α} {e : ExpansionError} {x : Expander}
    (h : r.silent = (Expanded.error e x).silent) : ∃ y, r = .error e y ∧ y.silent = x.silent := by
  cases r with
  | ok b y => cases h
  | error e' y =>
    simp only [silent, error.injEq] at h
    obtain ⟨rfl, hy⟩ := h
    exact ⟨y, rfl, hy⟩

namespace Expander

namespace Move

variable {r : Move} {x : Expander}

/-- States that are the same but for the notes are finished together. -/
private theorem of_silent_finish (h : r.silent = (Move.finish x).silent) :
    ∃ y, r = .finish y ∧ y.silent = x.silent := by
  cases r with
  | finish y =>
    simp only [silent, finish.injEq] at h
    exact ⟨y, rfl, h⟩
  | emit => cases h
  | invoke => cases h

/-- States that are the same but for the notes emit the same token. -/
private theorem of_silent_emit {t : Token} (h : r.silent = (Move.emit t x).silent) :
    ∃ y, r = .emit t y ∧ y.silent = x.silent := by
  cases r with
  | finish => cases h
  | emit u y =>
    simp only [silent, emit.injEq] at h
    obtain ⟨rfl, hy⟩ := h
    exact ⟨y, rfl, hy⟩
  | invoke => cases h

/-- States that are the same but for the notes ask for the same invocation. -/
private theorem of_silent_invoke {m : Macro} {site : Token} {args : List (List Token)}
    (h : r.silent = (Move.invoke m site args x).silent) :
    ∃ y, r = .invoke m site args y ∧ y.silent = x.silent := by
  cases r with
  | finish => cases h
  | emit => cases h
  | invoke m' site' args' y =>
    simp only [silent, invoke.injEq] at h
    obtain ⟨rfl, rfl, rfl, hy⟩ := h
    exact ⟨y, rfl, hy⟩

end Move

/-- Without their notes states are the same if their stacks and numbers are. -/
theorem silent_eq_iff {x y : Expander} :
    x.silent = y.silent ↔ x.stack = y.stack ∧ x.produced = y.produced ∧ x.count = y.count := by
  simp [silent]

/-- A state with the same stack and numbers differs in the notes only. -/
theorem exists_notes {x y : Expander} (h : x.silent = y.silent) :
    ∃ notes, x = { y with notes := notes } := by
  obtain ⟨hstack, hproduced, hcount⟩ := silent_eq_iff.1 h
  refine ⟨x.notes, ?_⟩
  rw [← hstack, ← hproduced, ← hcount]

/-- A test for a name is answered alike. -/
private theorem silent_defined (x : Expander) (notes : Array Note) (env : Expansion)
    (site : Token) : ({ x with notes := notes }.defined env site).1 = (x.defined env site).1 ∧
      ({ x with notes := notes }.defined env site).2.silent = (x.defined env site).2.silent := by
  unfold defined
  simp only
  split
  · exact ⟨rfl, rfl⟩
  · exact ⟨rfl, rfl⟩

/-- Arguments are looked for alike. -/
private theorem silent_call (x : Expander) (notes : Array Note) (m : Macro) (site : Token) :
    ({ x with notes := notes }.call m site).silent = (x.call m site).silent := by
  unfold call
  simp only
  split
  · split
    · rfl
    · rfl
  · rfl

/-- What the next token asks for does not depend on the notes. -/
theorem silent_move {x y : Expander} (h : x.silent = y.silent) (env : Expansion) :
    (x.move env).silent = (y.move env).silent := by
  -- The states differ in the notes alone, which no branch looks at.
  obtain ⟨notes, rfl⟩ := exists_notes h
  unfold move
  simp only
  cases y.stack.next? with
  | none => rfl
  | some read =>
    obtain ⟨t, s⟩ := read
    simp only
    split
    · rfl
    · split
      · obtain ⟨htoken, hstate⟩ := silent_defined { y with stack := s } notes env t
        simp only [Move.silent, htoken, hstate]
      · split
        · rfl
        · split
          · exact silent_call { y with stack := s } notes _ t
          · rfl

/-- A replacement is put on the stack alike. -/
private theorem silent_push {x y : Expander} (h : x.silent = y.silent) (env : Expansion)
    (ts : List Token) (name : String) :
    (x.push env ts name).silent = (y.push env ts name).silent := by
  obtain ⟨notes, rfl⟩ := exists_notes h
  unfold push
  simp only
  -- Limits are tested on the stack and on what was produced.
  split
  · rfl
  · split
    · rfl
    · rfl

end Expander

/-! ## Arguments and replacements -/

namespace Expansion

/-- The expansion that starts at `x` gives the same, whatever has been noted before it. -/
def Unheeding (env : Expansion) (x : Expander) : Prop :=
  ∀ x' out, x'.silent = x.silent → (expandFrom env x' out).silent = (expandFrom env x out).silent

section PreExpand

variable {env : Expansion} {depth start : Nat} {plain : List Bool}
  {args : List (List Token)} {before : List Argument} {produced count : Nat} {notes : Array Note}

/-- Arguments are expanded alike if each of the expansions opened for them is. -/
private theorem preExpand_notes (notes' : Array Note)
    (hargs : ∀ inner x, Opens env depth start inner x plain args produced count notes →
      Unheeding inner x) :
    let pre := preExpand env depth plain args before start produced count notes
    let pre' := preExpand env depth plain args before start produced count notes'
    pre'.args = pre.args ∧ pre'.produced = pre.produced ∧ pre'.count = pre.count := by
  induction args generalizing plain before produced count notes notes' with
  | nil => simp [preExpand]
  | cons a rest ih =>
    cases hplain : plain.headD true with
    | false =>
      rw [preExpand_of_raw hplain, preExpand_of_raw hplain]
      exact ih notes' fun inner x hopens => hargs inner x (.raw hplain hopens)
    | true =>
      by_cases hfull : env.nesting = 0
      · -- No argument can be expanded so deep, whatever the notes.
        rw [preExpand_of_full hplain hfull, preExpand_of_full hplain hfull]
        exact ⟨rfl, rfl, rfl⟩
      · have hfirst := hargs _ _ (.here hplain hfull rfl rfl) (.ofArgument a count notes') [] rfl
        cases hx : expandFrom (env.forArgument depth (start + produced))
            (.ofArgument a count notes) [] with
        | error e x =>
          rw [hx] at hfirst
          obtain ⟨x', hx', hsame⟩ := Expanded.of_silent_error hfirst
          rw [preExpand_of_error hplain hfull hx, preExpand_of_error hplain hfull hx']
          exact ⟨rfl, rfl, (Expander.silent_eq_iff.1 hsame).2.2⟩
        | ok ts x =>
          rw [hx] at hfirst
          obtain ⟨x', hx', hsame⟩ := Expanded.of_silent_ok hfirst
          obtain ⟨-, hproduced, hcount⟩ := Expander.silent_eq_iff.1 hsame
          -- The first argument gives the same, so the others start from the same but for the
          -- notes.
          rw [preExpand_of_ok hplain hfull hx, preExpand_of_ok hplain hfull hx', hproduced, hcount]
          exact ih x'.notes fun inner y hopens => hargs inner y (.expanded hplain hx hopens)

end PreExpand

/-- The arguments of an invocation are expanded alike if each expansion opened for them is. -/
private theorem silent_expandArguments {env : Expansion} {y y' : Expander}
    (h : y'.silent = y.silent) (m : Macro) (args : List (List Token))
    (hargs : ∀ inner x, Opens env y.stack.length y.produced inner x m.plainParams args 0 y.count
      y.notes → Unheeding inner x) :
    (y'.expandArguments env m args).silent = (y.expandArguments env m args).silent := by
  obtain ⟨notes, rfl⟩ := Expander.exists_notes h
  -- The arguments are expanded alike, whatever was noted before.
  obtain ⟨hsame, hproduced, hcount⟩ := @preExpand_notes env y.stack.length y.produced m.plainParams
    args [] 0 y.count y.notes notes hargs
  unfold Expander.expandArguments
  simp only
  rw [hsame, hproduced, hcount]
  split
  · rfl
  · rfl

/-- An invocation is replaced by the same, whatever has been noted before it. -/
theorem silent_replace {env : Expansion} {y y' : Expander} (h : y'.silent = y.silent) (m : Macro)
    (site : Token) (args : List (List Token))
    (hargs : ∀ inner x, Opens env y.stack.length y.produced inner x m.plainParams args 0 y.count
      y.notes → Unheeding inner x) :
    (y'.replace env m site args).silent = (y.replace env m site args).silent := by
  have hgiven := silent_expandArguments h m args hargs
  unfold Expander.replace
  cases hy : y.expandArguments env m args with
  | error e z =>
    rw [hy] at hgiven
    obtain ⟨z', hy', hz⟩ := Expanded.of_silent_error hgiven
    simp only [hy', Expanded.silent, hz]
  | ok given z =>
    rw [hy] at hgiven
    obtain ⟨z', hy', hz⟩ := Expanded.of_silent_ok hgiven
    -- The same body is put in from the same arguments.
    obtain ⟨notes, rfl⟩ := Expander.exists_notes hz
    simp only [hy']
    split
    · rfl
    · apply Expander.silent_push
      rfl

/-! ## Whole expansions -/

/-- No expansion heeds the notes made before it. -/
private theorem unheeding (p : Point) : Unheeding p.env p.state := by
  induction p using run_induction with
  | step p ih =>
    intro x out hx
    have hmove := Expander.silent_move hx p.env
    cases hp : p.state.move p.env with
    | finish y =>
      rw [hp] at hmove
      obtain ⟨y', hx', hy⟩ := Expander.Move.of_silent_finish hmove
      rw [expandFrom_of_move_finish hp, expandFrom_of_move_finish hx']
      simp only [Expanded.silent, hy]
    | emit t y =>
      rw [hp] at hmove
      obtain ⟨y', hx', hy⟩ := Expander.Move.of_silent_emit hmove
      rw [expandFrom_of_move_emit hp, expandFrom_of_move_emit hx']
      exact ih _ (.emit hp) y' _ hy
    | invoke m site args y =>
      rw [hp] at hmove
      obtain ⟨y', hx', hy⟩ := Expander.Move.of_silent_invoke hmove
      rw [expandFrom_of_move_invoke hp, expandFrom_of_move_invoke hx']
      -- The arguments are expanded on the way, and their expansions heed no notes either.
      have hreplace := silent_replace hy m site args fun inner z hopens =>
        ih _ (.enter (.mk hp hopens))
      cases hr : y.replace p.env m site args with
      | error e z =>
        rw [hr] at hreplace
        obtain ⟨z', hr', hz⟩ := Expanded.of_silent_error hreplace
        simp only [hr', Expanded.silent, hz]
      | ok u z =>
        rw [hr] at hreplace
        obtain ⟨z', hr', hz⟩ := Expanded.of_silent_ok hreplace
        simp only [hr']
        exact ih _ (.replace hp hr) z' out hz

/-- An expansion gives the same, whatever has been noted before it. -/
theorem silent_expand {x y : Expander} (h : x.silent = y.silent) (env : Expansion)
    (ts : List Token) : (x.expand env ts).silent = (y.expand env ts).silent := by
  obtain ⟨notes, rfl⟩ := Expander.exists_notes h
  exact unheeding (Point.start env y ts) _ [] rfl

end Expansion

end Preproc
