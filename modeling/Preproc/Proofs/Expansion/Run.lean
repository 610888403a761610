import Mathlib.Logic.Relation
import Preproc.Proofs.Expansion.Reading

/-!
# Runs of an expansion

An expansion is looked at as a sequence of points. A `Point` is how far one expansion has come,
together with the stacks of the expansions that wait for it: those in which an invocation is being
replaced whose arguments are expanded first. A `Step` emits a token, replaces an invocation, or
enters the expansion of an argument; `Reaches` is any number of steps.

Every step uses up some of what an expansion may still read and produce (`Step.weight_lt`), so a
property of all expansions can be proved from what a step leads to (`run_induction`).

## Key results

- `expandFrom_of_move_invoke`: an expansion goes on after an invocation exactly if it is replaced
- `Expander.replaced_of_replace`: all that is known of an invocation that has been replaced
- `Step.weight_lt`: every step, also into an argument, leaves less to do
- `run_induction`: induction over the steps of an expansion
-/

namespace Preproc

/-! ## Replacing an invocation -/

/-- Replaces the invocation `site` of `m`, which has been read: its arguments are expanded, and what
it stands for becomes a new stream. -/
def Expander.replace (y : Expander) (env : Expansion) (m : Macro) (site : Token)
    (args : List (List Token)) : Expanded Unit :=
  match y.expandArguments env m args with
  | .error e y₁ => .error e y₁
  | .ok given y₁ =>
    let replaced := m.replacement? given site y₁.count
    let y₂ := { y₁ with count := m.countAfter y₁.count }.addNotes replaced.notes
    match replaced.value with
    | none => .error .missingArgument y₂
    | some ts => y₂.push env (Expander.relocated m site ts) m.name

/-- An object-like macro is replaced by its body. -/
theorem Expander.replace_object (y : Expander) (env : Expansion) (name : String)
    (body : List Token) (site : Token) :
    y.replace env (.object name body) site [] =
      y.push env (Expander.relocated (.object name body) site body) name := by
  unfold replace expandArguments
  simp only [preExpand]
  rfl

/-- At the end an expansion gives what was emitted. -/
theorem expandFrom_of_move_finish {env : Expansion} {x y : Expander} (h : x.move env = .finish y)
    (out : List Token) : expandFrom env x out = .ok out.reverse y := by
  rw [expandFrom]
  split <;> simp_all

/-- After a token has been emitted the expansion goes on with the others. -/
theorem expandFrom_of_move_emit {env : Expansion} {x y : Expander} {t : Token}
    (h : x.move env = .emit t y) (out : List Token) :
    expandFrom env x out = expandFrom env y (t :: out) := by
  rw [expandFrom]
  split <;> simp_all

/-- After an invocation the expansion goes on with what replacing it leaves, or fails with it. -/
theorem expandFrom_of_move_invoke {env : Expansion} {x y : Expander} {m : Macro} {site : Token}
    {args : List (List Token)} (h : x.move env = .invoke m site args y) (out : List Token) :
    expandFrom env x out =
      match y.replace env m site args with
      | .error e z => .error e z
      | .ok () z => expandFrom env z out := by
  rw [expandFrom]
  split
  · simp_all
  · simp_all
  · rename_i m' site' args' y' h'
    rw [h] at h'
    simp only [Expander.Move.invoke.injEq] at h'
    obtain ⟨rfl, rfl, rfl, rfl⟩ := h'
    -- Both sides make the same case distinctions, in the same order.
    unfold Expander.replace Expander.expandArguments
    simp only
    cases
      (preExpand env y.stack.length m.plainParams args [] y.produced 0 y.count y.notes).args with
    | error e => rfl
    | ok given =>
      simp only
      cases hts : (m.replacement? given site _).value with
      | none => rfl
      | some ts =>
        simp only
        split
        · rename_i e z hpush
          rw [hpush]
        · rename_i z hpush
          rw [hpush]

/-! ## Expanding the arguments of an invocation -/

section PreExpand

variable {env : Expansion} {depth start : Nat} {plain : List Bool} {a : List Token}
  {rest args : List (List Token)} {before given : List Argument} {produced count : Nat}
  {notes : Array Note} {x : Expander}

/-- An argument that is an operand wherever it is substituted is not expanded. -/
theorem preExpand_of_raw (hplain : plain.headD true = false) :
    preExpand env depth plain (a :: rest) before start produced count notes =
      preExpand env depth plain.tail rest (⟨a, []⟩ :: before) start produced count notes := by
  rw [preExpand, hplain]
  rfl

/-- If no further expansion may be opened, none of the arguments is expanded. -/
theorem preExpand_of_full (hplain : plain.headD true = true) (hfull : env.nesting = 0) :
    preExpand env depth plain (a :: rest) before start produced count notes =
      ⟨.error .nesting, produced, count, notes⟩ := by
  rw [preExpand, if_pos hplain, if_pos hfull]

/-- An argument that is expanded counts before the arguments after it. -/
theorem preExpand_of_ok {ts : List Token} (hplain : plain.headD true = true)
    (hroom : env.nesting ≠ 0)
    (h : expandFrom (env.forArgument depth (start + produced)) (.ofArgument a count notes) [] =
      .ok ts x) :
    preExpand env depth plain (a :: rest) before start produced count notes =
      preExpand env depth plain.tail rest (⟨a, ts⟩ :: before) start (produced + x.produced) x.count
        x.notes := by
  rw [preExpand, if_pos hplain, if_neg hroom]
  simp only [h]

/-- The first argument whose expansion fails ends the expansion of the arguments. -/
theorem preExpand_of_error {e : ExpansionError} (hplain : plain.headD true = true)
    (hroom : env.nesting ≠ 0)
    (h : expandFrom (env.forArgument depth (start + produced)) (.ofArgument a count notes) [] =
      .error e x) :
    preExpand env depth plain (a :: rest) before start produced count notes =
      ⟨.error e, produced, x.count, x.notes⟩ := by
  rw [preExpand, if_pos hplain, if_neg hroom]
  simp only [h]

/-- If all arguments are given, the first is expanded, or need not be, and then the others are
given. -/
theorem of_preExpand_cons
    (h : (preExpand env depth plain (a :: rest) before start produced count notes).args =
      .ok given) :
    (plain.headD true = true ∧ env.nesting ≠ 0 ∧
      ∃ ts x, expandFrom (env.forArgument depth (start + produced)) (.ofArgument a count notes) [] =
          .ok ts x ∧
        preExpand env depth plain (a :: rest) before start produced count notes =
          preExpand env depth plain.tail rest (⟨a, ts⟩ :: before) start (produced + x.produced)
            x.count x.notes) ∨
    (plain.headD true = false ∧
      preExpand env depth plain (a :: rest) before start produced count notes =
        preExpand env depth plain.tail rest (⟨a, []⟩ :: before) start produced count notes) := by
  cases hplain : plain.headD true with
  | false => exact .inr ⟨rfl, preExpand_of_raw hplain⟩
  | true =>
    -- An argument is expanded only if there is room for that.
    by_cases hfull : env.nesting = 0
    · rw [preExpand_of_full hplain hfull] at h
      cases h
    · refine .inl ⟨rfl, hfull, ?_⟩
      cases hx : expandFrom (env.forArgument depth (start + produced))
          (.ofArgument a count notes) [] with
      | error e x =>
        rw [preExpand_of_error hplain hfull hx] at h
        cases h
      | ok ts x => exact ⟨ts, x, rfl, preExpand_of_ok hplain hfull hx⟩

/-- Every argument is given. -/
private theorem length_of_preExpand
    (h : (preExpand env depth plain args before start produced count notes).args = .ok given) :
    given.length = before.length + args.length := by
  induction args generalizing plain before produced count notes with
  | nil =>
    rw [preExpand] at h
    cases h
    simp
  | cons a rest ih =>
    -- Either way the argument joins those before it.
    rcases of_preExpand_cons h with ⟨-, -, ts, x, -, heq⟩ | ⟨-, heq⟩
    · rw [heq] at h
      have hlength := ih h
      simp only [List.length_cons] at hlength ⊢
      omega
    · rw [heq] at h
      have hlength := ih h
      simp only [List.length_cons] at hlength ⊢
      omega

end PreExpand

/-- The arguments of an invocation are those that expanding them in turn gives, and the tokens that
this takes are counted. -/
theorem Expander.preExpand_of_expandArguments {x y : Expander} {env : Expansion} {m : Macro}
    {args : List (List Token)} {given : List Argument}
    (h : x.expandArguments env m args = .ok given y) :
    let pre := preExpand env x.stack.length m.plainParams args [] x.produced 0 x.count x.notes
    pre.args = .ok given ∧ y.stack = x.stack ∧ y.produced = x.produced + pre.produced := by
  unfold expandArguments at h
  simp only at h
  split at h
  · cases h
  · rename_i given' hpre
    cases h
    exact ⟨hpre, rfl, rfl⟩

/-- If the arguments of an invocation cannot be expanded, one of them cannot, and the stack is as it
was. -/
theorem Expander.preExpand_of_expandArguments_error {x y : Expander} {env : Expansion} {m : Macro}
    {args : List (List Token)} {e : ExpansionError}
    (h : x.expandArguments env m args = .error e y) :
    (preExpand env x.stack.length m.plainParams args [] x.produced 0 x.count x.notes).args =
      .error e ∧ y.stack = x.stack := by
  unfold expandArguments at h
  simp only at h
  split at h
  · rename_i e' hpre
    cases h
    exact ⟨hpre, rfl⟩
  · cases h

/-- Expanding arguments leaves the stack, and gives each of them. -/
theorem Expander.of_expandArguments {x y : Expander} {env : Expansion} {m : Macro}
    {args : List (List Token)} {given : List Argument}
    (h : x.expandArguments env m args = .ok given y) :
    y.stack = x.stack ∧ x.produced ≤ y.produced ∧ given.length = args.length := by
  obtain ⟨hpre, hstack, hproduced⟩ := preExpand_of_expandArguments h
  have hlen := length_of_preExpand hpre
  exact ⟨hstack, by omega, by simpa using hlen⟩

/-- All that is known of the state `y` after the replacement `ts` of `name` has been put on the
stack of `x`. -/
theorem Expander.of_push {x y : Expander} {env : Expansion} {ts : List Token} {name : String}
    (h : x.push env ts name = .ok () y) :
    y = { x with produced := x.produced + ts.length, stack := ⟨some name, 0, ts⟩ :: x.stack } ∧
      (x.stack.length + env.waiting : Int) < env.maxDepth ∧
      ((x.produced + ts.length : Nat) : Int) ≤ env.maxTokens := by
  unfold push at h
  split at h
  · simp at h
  · rename_i hdepth
    simp only at h
    split at h
    · simp at h
    · -- Both limits have been tested.
      rename_i hlength
      simp only [Expanded.ok.injEq, true_and] at h
      exact ⟨h.symm, by omega, by omega⟩

/-- All that is known of an invocation that has been replaced: what it was given, the tokens it
stands for, and the state that is left. -/
structure Expander.Replaced (y : Expander) (env : Expansion) (m : Macro) (site : Token)
    (args : List (List Token)) (given : List Argument) (y₁ : Expander) (ts : List Token)
    (z : Expander) : Prop where
  expanded : y.expandArguments env m args = .ok given y₁
  replacement : (m.replacement? given site y₁.count).value = some ts
  stack : z.stack = ⟨some m.name, 0, Expander.relocated m site ts⟩ :: y.stack
  produced : z.produced = y₁.produced + (Expander.relocated m site ts).length
  count : z.count = m.countAfter y₁.count
  depth : (y.stack.length + env.waiting : Int) < env.maxDepth
  length : (z.produced : Int) ≤ env.maxTokens

/-- An invocation that is replaced had all of its arguments expanded, and its replacement fits. -/
theorem Expander.replaced_of_replace {y z : Expander} {env : Expansion} {m : Macro} {site : Token}
    {args : List (List Token)} (h : y.replace env m site args = .ok () z) :
    ∃ given y₁ ts, Expander.Replaced y env m site args given y₁ ts z := by
  unfold replace at h
  split at h
  · simp at h
  · rename_i given y₁ hgiven
    simp only at h
    split at h
    · simp at h
    · rename_i ts hts
      -- The arguments leave the stack, so the replacement is put on the one from before.
      obtain ⟨hstack, -, -⟩ := Expander.of_expandArguments hgiven
      obtain ⟨rfl, hdepth, hlength⟩ := Expander.of_push h
      exact ⟨given, y₁, ts, {
        expanded := hgiven
        replacement := hts
        stack := by simp only [addNotes, hstack]
        produced := rfl
        count := rfl
        depth := by simpa only [addNotes, hstack] using hdepth
        length := hlength }⟩

/-! ## Points and steps -/

namespace Expansion

/-- Expanding the arguments `args` opens an expansion with `inner`, which starts at `x`. The
arguments before it have been expanded, as far as they are expanded at all. -/
inductive Opens (env : Expansion) (depth start : Nat) (inner : Expansion) (x : Expander) :
    List Bool → List (List Token) → Nat → Nat → Array Note → Prop
  | here {plain : List Bool} {a : List Token} {rest : List (List Token)} {produced count : Nat}
      {notes : Array Note} (hplain : plain.headD true = true) (hroom : env.nesting ≠ 0)
      (hinner : inner = env.forArgument depth (start + produced))
      (hx : x = .ofArgument a count notes) :
      Opens env depth start inner x plain (a :: rest) produced count notes
  | expanded {plain : List Bool} {a : List Token} {rest : List (List Token)}
      {produced count : Nat} {notes : Array Note} {ts : List Token} {y : Expander}
      (hplain : plain.headD true = true)
      (ha : expandFrom (env.forArgument depth (start + produced)) (.ofArgument a count notes) [] =
        .ok ts y)
      (later : Opens env depth start inner x plain.tail rest (produced + y.produced) y.count
        y.notes) :
      Opens env depth start inner x plain (a :: rest) produced count notes
  | raw {plain : List Bool} {a : List Token} {rest : List (List Token)} {produced count : Nat}
      {notes : Array Note} (hplain : plain.headD true = false)
      (later : Opens env depth start inner x plain.tail rest produced count notes) :
      Opens env depth start inner x plain (a :: rest) produced count notes

/-- How far an expansion has come, and the stacks of the expansions that wait for it, newest
first. -/
structure Point where
  env : Expansion
  state : Expander
  waiting : List Stack := []

namespace Point

/-- Where the expansion of the tokens `ts` starts. -/
def start (env : Expansion) (x : Expander) (ts : List Token) : Point :=
  { env := env, state := { x with stack := [⟨none, 0, ts⟩] } }

/-- What is left to be read and produced. -/
def weight (p : Point) : Nat :=
  p.state.weight p.env

end Point

/-- The invocation that is read at the first point has an argument whose expansion starts at the
second. -/
inductive Enters : Point → Point → Prop
  | mk {p : Point} {m : Macro} {site : Token} {args : List (List Token)} {y : Expander}
      {inner : Expansion} {x : Expander} (hmove : p.state.move p.env = .invoke m site args y)
      (hopens : Opens p.env y.stack.length y.produced inner x m.plainParams args 0 y.count
        y.notes) :
      Enters p ⟨inner, x, y.stack :: p.waiting⟩

/-- One step of an expansion. -/
inductive Step : Point → Point → Prop
  | emit {p : Point} {t : Token} {y : Expander} (hmove : p.state.move p.env = .emit t y) :
      Step p { p with state := y }
  | replace {p : Point} {m : Macro} {site : Token} {args : List (List Token)} {y z : Expander}
      (hmove : p.state.move p.env = .invoke m site args y)
      (hreplace : y.replace p.env m site args = .ok () z) : Step p { p with state := z }
  | enter {p q : Point} (henter : Enters p q) : Step p q

/-- The second point comes after the first, or is the same. -/
abbrev Reaches : Point → Point → Prop :=
  Relation.ReflTransGen Step

/-- The name `name` is replaced at the point `p`. -/
def Point.Replaces (p : Point) (name : String) : Prop :=
  ∃ m site args y z, p.state.move p.env = .invoke m site args y ∧
    y.replace p.env m site args = .ok () z ∧ site.value = name

/-! ## Termination -/

/-- The expansion of an argument has less to do than what the arguments and the limit allow. -/
theorem Opens.weight_lt {env inner : Expansion} {depth start : Nat} {x : Expander}
    {plain : List Bool} {args : List (List Token)} {produced count : Nat} {notes : Array Note}
    (h : Opens env depth start inner x plain args produced count notes) :
    x.weight inner < Stack.weight args + (env.maxTokens - (start + produced : Nat)).toNat := by
  induction h with
  | here hplain hroom hinner hx =>
    subst hinner hx
    simp only [Expander.weight, Expander.ofArgument, Expansion.forArgument, Stack.remaining,
      Stack.weight]
    omega
  -- What was produced before counts against the limit.
  | expanded hplain ha later ih =>
    simp only [Stack.weight]
    omega
  | raw hplain later ih =>
    simp only [Stack.weight]
    omega

/-- A replacement is taken off what may still be produced. -/
private theorem weight_of_replace {y z : Expander} {env : Expansion} {m : Macro} {site : Token}
    {args : List (List Token)} (h : y.replace env m site args = .ok () z) :
    z.weight env ≤ y.weight env := by
  obtain ⟨given, y₁, ts, hr⟩ := Expander.replaced_of_replace h
  obtain ⟨-, hproduced, -⟩ := Expander.of_expandArguments hr.expanded
  have hz := hr.produced
  have hlength := hr.length
  simp only [Expander.weight, hr.stack, Stack.remaining]
  omega

/-- Every step leaves less to read and produce, also a step into an argument. -/
theorem Step.weight_lt {p q : Point} (h : Step p q) : q.weight < p.weight := by
  cases h with
  | emit hmove => exact Expander.weight_of_move_emit hmove
  | replace hmove hreplace =>
    -- Reading the name takes a token away; what the replacement adds is taken off the limit.
    obtain ⟨hproduced, hremaining⟩ := Expander.weight_of_move_invoke hmove
    have hle := weight_of_replace hreplace
    simp only [Point.weight, Expander.weight, hproduced] at hle ⊢
    omega
  | enter henter =>
    -- The arguments weigh less than what they were read from, with the name and its parenthesis.
    obtain ⟨hmove, hopens⟩ := henter
    obtain ⟨hproduced, hremaining⟩ := Expander.weight_of_move_invoke hmove
    have hlt := hopens.weight_lt
    simp only [Point.weight, Expander.weight, hproduced, Nat.add_zero] at hlt ⊢
    omega

/-- A property of all expansions holds if it holds of each whose steps lead to expansions that have
it. -/
@[elab_as_elim]
theorem run_induction {motive : Point → Prop}
    (step : ∀ p, (∀ q, Step p q → motive q) → motive p) (p : Point) : motive p := by
  -- Every step leaves less to do, so this is induction on what is left.
  induction hn : p.weight using Nat.strongRecOn generalizing p with
  | ind n ih =>
    subst hn
    exact step p fun q hq => ih q.weight hq.weight_lt q rfl

/-! ## What a run keeps -/

/-- The argument whose expansion is opened. -/
theorem Opens.argument {env inner : Expansion} {depth start : Nat} {x : Expander}
    {plain : List Bool} {args : List (List Token)} {produced count : Nat} {notes : Array Note}
    (h : Opens env depth start inner x plain args produced count notes) :
    (∃ a ∈ args, x.stack = [⟨none, 0, a⟩]) ∧ x.produced = 0 ∧ inner.macros = env.macros := by
  induction h with
  | @here plain a rest _ _ _ hplain hroom hinner hx =>
    subst hinner hx
    exact ⟨⟨a, List.mem_cons_self, rfl⟩, rfl, rfl⟩
  -- The argument is one of those behind this one.
  | expanded hplain ha later ih =>
    obtain ⟨⟨a, hmem, hstack⟩, hrest⟩ := ih
    exact ⟨⟨a, List.mem_cons_of_mem _ hmem, hstack⟩, hrest⟩
  | raw hplain later ih =>
    obtain ⟨⟨a, hmem, hstack⟩, hrest⟩ := ih
    exact ⟨⟨a, List.mem_cons_of_mem _ hmem, hstack⟩, hrest⟩

/-- The input, or the argument, stays on the stack to the end. -/
theorem Step.stack_ne_nil {p q : Point} (h : Step p q) (hp : p.state.stack ≠ []) :
    q.state.stack ≠ [] := by
  cases h with
  | emit hmove => exact (Expander.advances_of_move_emit hmove).ne_nil hp
  | replace hmove hreplace =>
    obtain ⟨_, _, _, hr⟩ := Expander.replaced_of_replace hreplace
    simp only [hr.stack]
    exact List.cons_ne_nil _ _
  -- An argument is the only stream of its own stack.
  | enter henter =>
    obtain ⟨hmove, hopens⟩ := henter
    obtain ⟨⟨a, -, hstack⟩, -⟩ := hopens.argument
    simp only [hstack]
    exact List.cons_ne_nil _ _

/-- There is a stream to read from at every point of a run. -/
theorem Reaches.stack_ne_nil {p q : Point} (h : Reaches p q) (hp : p.state.stack ≠ []) :
    q.state.stack ≠ [] := by
  induction h with
  | refl => exact hp
  | tail _ hstep ih => exact hstep.stack_ne_nil ih

end Expansion

end Preproc
