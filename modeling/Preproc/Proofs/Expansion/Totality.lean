import Mathlib.Data.List.Chain
import Preproc.Proofs.Expansion.Run
import Preproc.Proofs.Samples

/-!
# Every expansion ends, and how it can fail

An invocation is given as many arguments as its macro takes, so no replacement list asks for an
argument that is missing; there is always a stream to read from; and every run is short. Hence an
expansion gives a list of tokens unless one of its two limits is exceeded, or its arguments stand
inside of one another more deeply than the host allows, whatever the table of macros, the tokens and
the limits are.

## Key results

- `Signature.substitute_isSome`: with an argument for every parameter there is a replacement
- `Expansion.cause_of_expandFrom`: what an expansion that fails has come to
- `Expansion.Reaches.fails`: a failure inside of an argument is one of the whole expansion
- `Expansion.run_length_le`: a run has at most as many steps as tokens may be read and produced
- `Expansion.Nested.fails_of_calls`: calls that are nested one deeper than is allowed fail
-/

namespace Preproc

/-! ## Arguments are never missing -/

namespace Signature

/-- A token that names a parameter names one of them. -/
theorem index?_lt {sig : Signature} {t : Token} {i : Nat} (h : sig.index? t = some i) :
    i < sig.params.length := by
  unfold index? at h
  split at h
  · exact (List.findIdx?_eq_some_iff_findIdx_eq.1 h).1
  · simp at h

/-- An argument list that the macro takes has an argument for every parameter, once an empty one
stands for a variable argument that was left out. -/
theorem params_le_completeArguments {sig : Signature} {given : List Argument}
    (h : sig.accepts given.length = true) :
    sig.params.length ≤ (sig.completeArguments given).length := by
  unfold accepts at h
  unfold completeArguments
  split at h
  · rename_i hvariadic
    have hle : sig.params.length ≤ given.length + 1 := by simpa using h
    split
    · -- The variable arguments may be left out, and are put in empty.
      rename_i hmissing
      have heq : given.length + 1 = sig.params.length := by simpa [hvariadic] using hmissing
      simp only [List.length_append, List.length_cons, List.length_nil]
      omega
    · rename_i hpresent
      have hne : ¬given.length + 1 = sig.params.length := by simpa [hvariadic] using hpresent
      omega
  · rename_i hfixed
    have heq : given.length = sig.params.length := by simpa using h
    rw [if_neg (by simp [hfixed])]
    omega

/-- An operand is always there, if there is an argument for every parameter. -/
private theorem operand?_isSome {sig : Signature} {args : List Argument}
    (h : sig.params.length ≤ args.length) (t : Token) (next : Option Token) :
    (sig.operand? args t next).isSome = true := by
  -- A token that names a parameter names an argument.
  have hget : ∀ {u : Token} {i : Nat}, sig.index? u = some i → (args[i]?).isSome = true := by
    intro u i hi
    have hlt := index?_lt hi
    rw [List.getElem?_eq_getElem (by omega)]
    rfl
  unfold operand?
  split
  · rename_i hstringize
    unfold isStringize isParam at hstringize
    simp only [Bool.and_eq_true, Option.any_eq_true] at hstringize
    obtain ⟨-, u, rfl, hu⟩ := hstringize
    obtain ⟨i, hi⟩ := Option.isSome_iff_exists.1 hu
    simpa [hi] using hget hi
  · split
    · rename_i i hi
      simpa using hget hi
    · rfl

/-- All that an operand can be: a stringized argument, which takes the parameter after the operator,
or an argument as written, or the token itself. -/
theorem of_operand? {sig : Signature} {args : List Argument} {t : Token} {next : Option Token}
    {ts : List Token} {extra : Nat} (h : sig.operand? args t next = some (ts, extra)) :
    (sig.isStringize t next = true ∧ extra = 1 ∧ ∃ a ∈ args, ts = [stringize a.raw t]) ∨
    (sig.isStringize t next = false ∧ extra = 0 ∧
      (ts = [t] ∨ ∃ a ∈ args, ts = withWhiteOf t a.raw)) := by
  unfold operand? at h
  split at h
  · -- The parameter behind the operator is made a string.
    rename_i hstringize
    obtain ⟨i, -, h⟩ := Option.bind_eq_some_iff.1 h
    obtain ⟨a, ha, h⟩ := Option.map_eq_some_iff.1 h
    obtain ⟨rfl, rfl⟩ := Prod.mk.inj h
    exact .inl ⟨hstringize, rfl, a, List.mem_of_getElem? ha, rfl⟩
  · rename_i hstringize
    refine .inr ⟨by simpa using hstringize, ?_⟩
    split at h
    · -- A parameter stands for its argument, and anything else for itself.
      obtain ⟨a, ha, h⟩ := Option.map_eq_some_iff.1 h
      obtain ⟨rfl, rfl⟩ := Prod.mk.inj h
      exact ⟨rfl, .inr ⟨a, List.mem_of_getElem? ha, rfl⟩⟩
    · obtain ⟨rfl, rfl⟩ := Prod.mk.inj (Option.some.inj h)
      exact ⟨rfl, .inl rfl⟩

/-- With an argument for every parameter there is a replacement. -/
theorem substitute_isSome {sig : Signature} {args : List Argument}
    (h : sig.params.length ≤ args.length) (name : String) (before : List (Option Token))
    (body : List Token) : (sig.substitute name args before body).value.isSome = true := by
  -- The cases in which there is no replacement ask for an argument that is there.
  fun_induction substitute sig name args before body with
  | case1 => rfl
  | case2 t ht last older r more hnone =>
    have hsome := operand?_isSome h r more.head?
    rw [hnone] at hsome
    simp at hsome
  | case3 t ht last older r more right extra hright ih => exact ih _
  | case4 t ht older more hends ih => exact ih
  | case5 before t rest ht hoperand hnone =>
    have hsome := operand?_isSome h t rest.head?
    rw [hnone] at hsome
    simp at hsome
  | case6 before t rest ht hoperand ts extra hts ih => exact ih
  | case7 before t rest ht hoperand hindex ih => exact ih
  | case8 before t rest ht hoperand i hi hnone =>
    have hlt := index?_lt hi
    rw [List.getElem?_eq_none_iff] at hnone
    omega
  | case9 before t rest ht hoperand i hi a ha ih => exact ih

end Signature

/-- A macro that is given as many arguments as it takes has a replacement. -/
private theorem Macro.replacement?_isSome {m : Macro} {given : List Argument}
    (h : m.accepts given.length = true) (site : Token) (count : Nat) :
    (m.replacement? given site count).value.isSome = true := by
  cases m with
  | object name body => rfl
  | builtin name b => rfl
  | function name sig plain body =>
    -- Only substitution could fail, for want of an argument.
    have hsig : sig.accepts given.length = true := by simpa [accepts, signature?] using h
    have hsome := Signature.substitute_isSome (Signature.params_le_completeArguments hsig) name []
      body
    simpa [replacement?] using hsome

/-! ## Failures -/

/-- The failure is that a limit of `env` is exceeded. An argument is left a part of the limit on
tokens. -/
def ExpansionError.IsLimit (env : Expansion) : ExpansionError → Prop
  | .depth limit _ => limit = env.maxDepth
  | .length limit _ => limit ≤ env.maxTokens
  | .nesting => False
  | .missingArgument => False

namespace Expansion

/-- Whether one of the arguments is to be expanded, as `plain` tells. -/
def asksExpansion : List Bool → List (List Token) → Bool
  | _, [] => false
  | plain, _ :: rest => plain.headD true || asksExpansion plain.tail rest

/-- The invocation that is read at the point has an argument to be expanded. -/
def Point.AsksArgument (p : Point) : Prop :=
  ∃ m site args y, p.state.move p.env = .invoke m site args y ∧
    asksExpansion m.plainParams args = true

/-- An argument is to be expanded at the point, and no further expansion may be opened for it. -/
def Point.Blocked (p : Point) : Prop :=
  p.env.nesting = 0 ∧ p.AsksArgument

/-- Putting a replacement on the stack fails only at a limit. -/
private theorem isLimit_of_push {x y : Expander} {env : Expansion} {ts : List Token}
    {name : String} {e : ExpansionError} (h : x.push env ts name = .error e y) :
    e.IsLimit env := by
  unfold Expander.push at h
  split at h
  · simp only [Expanded.error.injEq] at h
    obtain ⟨rfl, -⟩ := h
    exact rfl
  · simp only at h
    split at h
    · simp only [Expanded.error.injEq] at h
      obtain ⟨rfl, -⟩ := h
      exact Int.le_refl _
    · simp at h

/-- If expanding the arguments fails, it is because one of the expansions that it opens fails, or
because none may be opened. -/
private theorem opens_of_preExpand_error {env : Expansion} {depth start : Nat} {plain : List Bool}
    {args : List (List Token)} {before : List Argument} {produced count : Nat}
    {notes : Array Note} {e : ExpansionError}
    (h : (preExpand env depth plain args before start produced count notes).args = .error e) :
    (∃ inner x y, Opens env depth start inner x plain args produced count notes ∧
      expandFrom inner x [] = .error e y) ∨
    (e = .nesting ∧ env.nesting = 0 ∧ asksExpansion plain args = true) := by
  induction args generalizing plain before produced count notes with
  | nil =>
    rw [preExpand] at h
    cases h
  | cons a rest ih =>
    cases hplain : plain.headD true with
    | false =>
      -- The argument is not expanded, so it is one of the others.
      rw [preExpand_of_raw hplain] at h
      rcases ih h with ⟨inner, x, y, hopens, hfail⟩ | ⟨he, hfull, hasks⟩
      · exact .inl ⟨inner, x, y, .raw hplain hopens, hfail⟩
      · exact .inr ⟨he, hfull, by rw [asksExpansion, hplain, hasks]; rfl⟩
    | true =>
      by_cases hfull : env.nesting = 0
      · rw [preExpand_of_full hplain hfull] at h
        cases h
        exact .inr ⟨rfl, hfull, by rw [asksExpansion, hplain]; rfl⟩
      · cases hx : expandFrom (env.forArgument depth (start + produced))
            (.ofArgument a count notes) [] with
        | error e' y =>
          rw [preExpand_of_error hplain hfull hx] at h
          cases h
          exact .inl ⟨_, _, y, .here hplain hfull rfl rfl, hx⟩
        | ok ts y =>
          -- The first argument gives tokens, so a later one fails, and not for want of room.
          rw [preExpand_of_ok hplain hfull hx] at h
          rcases ih h with ⟨inner, x, z, hopens, hfail⟩ | ⟨-, hempty, -⟩
          · exact .inl ⟨inner, x, z, .expanded hplain hx hopens, hfail⟩
          · exact absurd hempty hfull

/-- If the arguments of an invocation cannot be expanded, then one of them fails, or there is no
room for one that has to be expanded. -/
private theorem opens_of_expandArguments_error {y z : Expander} {env : Expansion} {m : Macro}
    {args : List (List Token)} {e : ExpansionError}
    (h : y.expandArguments env m args = .error e z) :
    (∃ inner x w, Opens env y.stack.length y.produced inner x m.plainParams args 0 y.count
      y.notes ∧ expandFrom inner x [] = .error e w) ∨
    (e = .nesting ∧ env.nesting = 0 ∧ asksExpansion m.plainParams args = true) :=
  opens_of_preExpand_error (Expander.preExpand_of_expandArguments_error h).1

/-- An argument is expanded below the same limit on live streams, and within the limit on
tokens. -/
theorem Opens.limits {env inner : Expansion} {depth start : Nat} {x : Expander}
    {plain : List Bool} {args : List (List Token)} {produced count : Nat} {notes : Array Note}
    (h : Opens env depth start inner x plain args produced count notes) :
    inner.maxDepth = env.maxDepth ∧ inner.maxTokens ≤ env.maxTokens := by
  induction h with
  -- The argument gets what is left of the tokens.
  | here hplain hroom hinner hx =>
    subst hinner
    simp only [forArgument, true_and]
    omega
  | expanded hplain ha later ih => exact ih
  | raw hplain later ih => exact ih

/-- A limit that an argument exceeds is one of the expansion that it is an argument of. -/
private theorem isLimit_of_opens {env inner : Expansion} {depth start : Nat} {x : Expander}
    {plain : List Bool} {args : List (List Token)} {produced count : Nat} {notes : Array Note}
    {e : ExpansionError} (h : Opens env depth start inner x plain args produced count notes)
    (he : e.IsLimit inner) : e.IsLimit env := by
  obtain ⟨hdepth, htokens⟩ := h.limits
  cases e with
  | depth limit name => exact Eq.trans he hdepth
  | length limit name => exact Int.le_trans he htokens
  | nesting => exact he
  | missingArgument => exact he

/-- An invocation that is read and not replaced fails because an argument fails, because no
argument can be expanded, or at a limit: its replacement is never missing. -/
private theorem cause_of_replace {x y z : Expander} {env : Expansion} {m : Macro} {site : Token}
    {args : List (List Token)} {e : ExpansionError} (hmove : x.move env = .invoke m site args y)
    (h : y.replace env m site args = .error e z) :
    (∃ inner x w, Opens env y.stack.length y.produced inner x m.plainParams args 0 y.count
      y.notes ∧ expandFrom inner x [] = .error e w) ∨
    (e = .nesting ∧ env.nesting = 0 ∧ asksExpansion m.plainParams args = true) ∨
    e.IsLimit env := by
  unfold Expander.replace at h
  split at h
  · rename_i e' y₁ hfail
    simp only [Expanded.error.injEq] at h
    obtain ⟨rfl, -⟩ := h
    exact (opens_of_expandArguments_error hfail).imp_right .inl
  · rename_i given y₁ hgiven
    -- As many arguments are given as were read, and that many are accepted.
    obtain ⟨-, -, hlength⟩ := Expander.of_expandArguments hgiven
    have haccepts : m.accepts given.length = true := by
      rw [hlength]
      exact (Expander.invokes_of_move hmove).accepts
    have hsome := Macro.replacement?_isSome haccepts site y₁.count
    simp only at h
    split at h
    · rename_i hnone
      rw [hnone] at hsome
      simp at hsome
    · exact .inr (.inr (isLimit_of_push h))

/-- An expansion fails at a limit, or because it comes to a point at which an argument cannot be
expanded. -/
theorem cause_of_expandFrom (p : Point) {out : List Token} {e : ExpansionError} {z : Expander}
    (h : expandFrom p.env p.state out = .error e z) :
    e.IsLimit p.env ∨ (e = .nesting ∧ ∃ q, Reaches p q ∧ q.Blocked) := by
  induction p using run_induction generalizing out e z with
  | step p ih =>
    -- What is reached after a step is reached before it.
    have hlater : ∀ {q}, Step p q → (∃ r, Reaches q r ∧ r.Blocked) → ∃ r, Reaches p r ∧ r.Blocked :=
      fun hstep ⟨r, hreach, hblocked⟩ => ⟨r, .head hstep hreach, hblocked⟩
    cases hmove : p.state.move p.env with
    | finish y =>
      rw [expandFrom_of_move_finish hmove] at h
      simp at h
    | emit t y =>
      rw [expandFrom_of_move_emit hmove] at h
      exact (ih _ (.emit hmove) h).imp_right (.imp_right (hlater (.emit hmove)))
    | invoke m site args y =>
      rw [expandFrom_of_move_invoke hmove] at h
      cases hreplace : y.replace p.env m site args with
      | ok u w =>
        simp only [hreplace] at h
        have hstep : Step p _ := .replace hmove hreplace
        exact (ih _ hstep h).imp_right (.imp_right (hlater hstep))
      | error e' w =>
        simp only [hreplace, Expanded.error.injEq] at h
        obtain ⟨rfl, -⟩ := h
        rcases cause_of_replace hmove hreplace with
          ⟨inner, x, w, hopens, hfail⟩ | ⟨he, hfull, hasks⟩ | hlimit
        · -- An argument is expanded from a point one step away, so it is covered already.
          have hstep : Step p _ := .enter (.mk hmove hopens)
          rcases ih _ hstep hfail with hlimit | hblocked
          · exact .inl (isLimit_of_opens hopens hlimit)
          · exact .inr (hblocked.imp_right (hlater hstep))
        · exact .inr ⟨he, p, .refl, hfull, m, site, args, y, hmove, hasks⟩
        · exact .inl hlimit

/-! ## Failures in arguments -/

/-- The expansion from `p` on fails with `e`, whatever was given before. -/
def Point.Fails (p : Point) (e : ExpansionError) : Prop :=
  ∀ out, ∃ z, expandFrom p.env p.state out = .error e z

/-- If one of the arguments is to be expanded and none can be, expanding them fails. -/
private theorem preExpand_args_of_full {env : Expansion} {depth start : Nat} {plain : List Bool}
    {args : List (List Token)} {before : List Argument} {produced count : Nat}
    {notes : Array Note} (hfull : env.nesting = 0) (hasks : asksExpansion plain args = true) :
    (preExpand env depth plain args before start produced count notes).args =
      .error .nesting := by
  induction args generalizing plain before with
  | nil => cases hasks
  | cons a rest ih =>
    cases hplain : plain.headD true with
    -- An argument that is not asked for needs no room.
    | false =>
      rw [asksExpansion, hplain] at hasks
      rw [preExpand_of_raw hplain]
      exact ih hasks
    | true => rw [preExpand_of_full hplain hfull]

/-- Inside of an expansion that is opened one less may be. -/
theorem Opens.nesting {env inner : Expansion} {depth start : Nat} {x : Expander}
    {plain : List Bool} {args : List (List Token)} {produced count : Nat} {notes : Array Note}
    (h : Opens env depth start inner x plain args produced count notes) :
    inner.nesting = env.nesting - 1 := by
  induction h with
  | here hplain hroom hinner hx => rw [hinner, forArgument]
  | expanded hplain ha later ih => exact ih
  | raw hplain later ih => exact ih

/-- An expansion is opened only if that is allowed. -/
theorem Opens.room {env inner : Expansion} {depth start : Nat} {x : Expander}
    {plain : List Bool} {args : List (List Token)} {produced count : Nat} {notes : Array Note}
    (h : Opens env depth start inner x plain args produced count notes) : env.nesting ≠ 0 := by
  induction h with
  | here hplain hroom hinner hx => exact hroom
  | expanded hplain ha later ih => exact ih
  | raw hplain later ih => exact ih

/-- If an expansion that is opened fails, so does expanding the arguments, in the same way. -/
private theorem preExpand_args_of_opens {env inner : Expansion} {depth start : Nat} {x z : Expander}
    {plain : List Bool} {args : List (List Token)} {produced count : Nat} {notes : Array Note}
    (h : Opens env depth start inner x plain args produced count notes) {e : ExpansionError}
    (hfail : expandFrom inner x [] = .error e z) (before : List Argument) :
    (preExpand env depth plain args before start produced count notes).args = .error e := by
  induction h generalizing before with
  | here hplain hroom hinner hx =>
    subst hinner hx
    rw [preExpand_of_error hplain hroom hfail]
  | expanded hplain ha later ih =>
    rw [preExpand_of_ok hplain later.room ha]
    exact ih _
  | raw hplain later ih =>
    rw [preExpand_of_raw hplain]
    exact ih _

/-- An invocation whose arguments fail makes the expansion fail in the same way. -/
private theorem Point.fails_of_args {p : Point} {m : Macro} {site : Token}
    {args : List (List Token)} {y : Expander} {e : ExpansionError}
    (hmove : p.state.move p.env = .invoke m site args y)
    (hargs : (preExpand p.env y.stack.length m.plainParams args [] y.produced 0 y.count
      y.notes).args = .error e) : p.Fails e := by
  intro out
  rw [expandFrom_of_move_invoke hmove]
  unfold Expander.replace Expander.expandArguments
  simp only [hargs]
  exact ⟨_, rfl⟩

/-- A point at which an argument cannot be expanded is one at which the expansion fails. -/
theorem Point.Blocked.fails {p : Point} (h : p.Blocked) : p.Fails .nesting := by
  obtain ⟨hfull, m, site, args, y, hmove, hasks⟩ := h
  exact Point.fails_of_args hmove (preExpand_args_of_full hfull hasks)

/-- An expansion fails if it fails after a step, also if that is a step into an argument. -/
theorem Step.fails {p q : Point} (h : Step p q) {e : ExpansionError} (hq : q.Fails e) :
    p.Fails e := by
  cases h with
  | emit hmove =>
    intro out
    rw [expandFrom_of_move_emit hmove]
    exact hq _
  | replace hmove hreplace =>
    intro out
    rw [expandFrom_of_move_invoke hmove, hreplace]
    exact hq out
  | enter henter =>
    obtain ⟨hmove, hopens⟩ := henter
    -- An argument that fails makes its invocation fail, and with it the expansion.
    obtain ⟨z, hfail⟩ := hq []
    exact Point.fails_of_args hmove (preExpand_args_of_opens hopens hfail [])

/-- A run does not get past a point at which it fails. -/
theorem Reaches.fails {p q : Point} (h : Reaches p q) {e : ExpansionError} (hq : q.Fails e) :
    p.Fails e := by
  induction h using Relation.ReflTransGen.head_induction_on with
  | refl => exact hq
  | head hstep _ ih => exact hstep.fails ih

/-! ## Runs -/

/-- A run is no longer than what its first point may still read and produce. -/
theorem run_length_le {p : Point} {run : List Point} (h : List.IsChain Step (p :: run)) :
    run.length ≤ p.weight := by
  induction run generalizing p with
  | nil => exact Nat.zero_le _
  | cons q run ih =>
    rw [List.isChain_cons_cons] at h
    obtain ⟨hstep, hrest⟩ := h
    -- Each step makes the weight smaller.
    have hlt := hstep.weight_lt
    have hle := ih hrest
    simp only [List.length_cons]
    omega

/-- Whatever is looked up at the point is there: a stream to read from, also after an invocation has
been read, and an argument for every parameter that a replacement list can name. -/
structure Point.InRange (p : Point) : Prop where
  stack : p.state.stack ≠ []
  invocation : ∀ m site args y, p.state.move p.env = .invoke m site args y →
    y.stack ≠ [] ∧ ∀ sig, m.signature? = some sig → ∀ given : List Argument,
      given.length = args.length → ∀ t i, sig.index? t = some i →
        i < (sig.completeArguments given).length

/-- Everything that is looked up at a point of a run is there. -/
private theorem Reaches.inRange {p q : Point} (h : Reaches p q) (hp : p.state.stack ≠ []) :
    q.InRange := by
  have hstack := h.stack_ne_nil hp
  refine ⟨hstack, ?_⟩
  intro m site args y hmove
  have hinv := Expander.invokes_of_move hmove
  refine ⟨hinv.advances.ne_nil hstack, ?_⟩
  intro sig hsig given hlength t i hi
  have haccepts : sig.accepts given.length = true := by
    rw [hlength]
    simpa [Macro.accepts, hsig] using hinv.accepts
  -- As many arguments were accepted as there are parameters, or one less, for which one is added.
  have hle := Signature.params_le_completeArguments haccepts
  have hlt := Signature.index?_lt hi
  omega

/-- An expansion may open as many expansions inside of one another as there is room for: those that
wait and those that may still be opened stay as many. -/
theorem Reaches.nesting {p q : Point} (h : Reaches p q) :
    q.waiting.length + q.env.nesting = p.waiting.length + p.env.nesting := by
  induction h with
  | refl => rfl
  | @tail q r _ hstep ih =>
    cases hstep with
    | emit hmove => exact ih
    | replace hmove hreplace => exact ih
    | enter henter =>
      -- One more expansion waits, and one less may be opened.
      obtain ⟨hmove, hopens⟩ := henter
      have hroom := hopens.room
      have hinner := hopens.nesting
      simp only [List.length_cons, hinner]
      omega

/-- Each expansion that waits has been left something less to do. -/
private theorem Reaches.waiting_le {p q : Point} (h : Reaches p q) :
    q.weight + q.waiting.length ≤ p.weight + p.waiting.length := by
  induction h with
  | refl => exact Nat.le_refl _
  | @tail q r _ hstep ih =>
    have hlt := hstep.weight_lt
    cases hstep with
    | emit hmove => simp only at hlt ⊢; omega
    | replace hmove hreplace => simp only at hlt ⊢; omega
    -- One more expansion waits, which is paid for by the weight.
    | enter henter =>
      obtain ⟨hmove, hopens⟩ := henter
      simp only [List.length_cons] at hlt ⊢
      omega

/-- Every expansion ends: a run, also into the arguments of invocations, has at most as many steps
as there are tokens to read and to produce. It gives a list of tokens, or exceeds a limit, or comes
to an argument that cannot be expanded. The last happens exactly if a point is reached at which as
many expansions wait as may be opened, and another is asked for; and only if there are more tokens
to read and to produce than that. On the way everything that is looked up is there. -/
theorem expand_ends (env : Expansion) (x : Expander) (ts : List Token) :
    ((∃ out y, x.expand env ts = .ok out y) ∨
      (∃ e y, x.expand env ts = .error e y ∧ e.IsLimit env) ∨
      ∃ y, x.expand env ts = .error .nesting y) ∧
    ((∃ y, x.expand env ts = .error .nesting y) ↔
      ∃ p, Reaches (Point.start env x ts) p ∧ p.waiting.length = env.nesting ∧ p.AsksArgument) ∧
    ((∃ y, x.expand env ts = .error .nesting y) →
      env.nesting < ts.length + (env.maxTokens - x.produced).toNat) ∧
    (∀ run, List.IsChain Step (Point.start env x ts :: run) →
      run.length ≤ ts.length + (env.maxTokens - x.produced).toNat) ∧
    ∀ p, Reaches (Point.start env x ts) p → p.InRange := by
  have hweight : (Point.start env x ts).weight =
      ts.length + (env.maxTokens - x.produced).toNat := by
    simp [Point.weight, Point.start, Expander.weight, Stack.remaining]
  -- At the start nothing waits, so the point that cannot go on is told by what waits there.
  have hblocked : (∃ y, x.expand env ts = .error .nesting y) ↔
      ∃ p, Reaches (Point.start env x ts) p ∧ p.waiting.length = env.nesting ∧
        p.AsksArgument := by
    constructor
    · rintro ⟨y, h⟩
      -- It comes to a point at which nothing more may be opened, so as many wait as were allowed.
      rcases cause_of_expandFrom (Point.start env x ts) h with hlimit | ⟨-, q, hreach, hfull, hasks⟩
      · exact hlimit.elim
      · have hsum := hreach.nesting
        simp only [Point.start, List.length_nil, hfull] at hsum
        exact ⟨q, hreach, by omega, hasks⟩
    · rintro ⟨p, hreach, hwaiting, hasks⟩
      have hsum := hreach.nesting
      simp only [Point.start, List.length_nil] at hsum
      exact hreach.fails (Point.Blocked.fails ⟨by omega, hasks⟩) []
  refine ⟨?_, hblocked, ?_, ?_, fun p hp => hp.inRange (List.cons_ne_nil _ _)⟩
  · cases h : x.expand env ts with
    | ok out y => exact .inl ⟨out, y, rfl⟩
    | error e y =>
      rcases cause_of_expandFrom (Point.start env x ts) h with hlimit | ⟨rfl, -⟩
      · exact .inr (.inl ⟨e, y, rfl, hlimit⟩)
      · exact .inr (.inr ⟨y, rfl⟩)
  · intro h
    obtain ⟨p, hreach, hwaiting, m, site, args, y, hmove, -⟩ := hblocked.1 h
    have hle := hreach.waiting_le
    -- There is something left to read where the argument stands.
    obtain ⟨-, hremaining⟩ := Expander.weight_of_move_invoke hmove
    have hpos : 0 < p.weight := by
      simp only [Point.weight, Expander.weight]
      omega
    have hnone : (Point.start env x ts).waiting.length = 0 := rfl
    omega
  · intro run hrun
    rw [← hweight]
    exact run_length_le hrun

/-! ## Calls that are nested too deeply -/

namespace Nested

/-- What an expansion works with that knows the macro `f(x)`, which stands for `x`. -/
def env (nesting : Nat) : Expansion :=
  { macros := { macros := [.echo] }, nesting }

/-- The tokens of `f(f(…f(1)…))`, with as many calls as `n` says. -/
def calls : Nat → List Token
  | 0 => [.sample .number "1"]
  | n + 1 => .word "f" :: .sign "(" :: (calls n ++ [.sign ")"])

private theorem next?_input (k : Nat) (t : Token) (ts : List Token) :
    Stack.next? [⟨none, k, t :: ts⟩] = some (t, [⟨none, k + 1, ts⟩]) := by
  simp [Stack.next?, Stack.paint, Stack.painted]

/-- What one token of the input does to the argument list that is being read, unless it is a
comma. -/
private theorem gather_input {limit : Option Nat} {depth : Nat} {before : List (List Token)}
    {current : List Token} {k : Nat} {t : Token} {ts : List Token}
    (hcomma : t.isPunctuator "," = false) :
    Stack.gather limit depth before current [⟨none, k, t :: ts⟩] =
      if t.isPunctuator "(" then
        Stack.gather limit (depth + 1) before (t :: current) [⟨none, k + 1, ts⟩]
      else if t.isPunctuator ")" then
        if depth ≤ 1 then some ((Stack.endArgument before current).reverse, [⟨none, k + 1, ts⟩])
        else Stack.gather limit (depth - 1) before (t :: current) [⟨none, k + 1, ts⟩]
      else Stack.gather limit depth before (t :: current) [⟨none, k + 1, ts⟩] := by
  rw [Stack.gather]
  split
  · -- There is a token, so the list does not end here.
    rename_i hnext
    rw [next?_input] at hnext
    cases hnext
  · rename_i hnext
    rw [next?_input] at hnext
    cases hnext
    simp [hcomma]

/-- Calls are read as a part of an argument, since their parentheses match. -/
private theorem gather_calls (n depth k : Nat) (current rest : List Token) :
    Stack.gather none (depth + 1) [] current [⟨none, k, calls n ++ rest⟩] =
      Stack.gather none (depth + 1) [] ((calls n).reverse ++ current)
        [⟨none, k + (calls n).length, rest⟩] := by
  induction n generalizing depth k current rest with
  | zero =>
    rw [calls, List.singleton_append, gather_input rfl]
    rfl
  | succ n ih =>
    have hcount : k + 1 + 1 + (calls n).length + 1 = k + (calls (n + 1)).length := by
      simp only [calls, List.length_cons, List.length_append, List.length_nil]
      omega
    rw [← hcount]
    -- The name, its parenthesis, the calls inside, and the parenthesis that closes the list.
    rw [calls, List.cons_append, gather_input rfl, if_neg (by decide), if_neg (by decide),
      List.cons_append, gather_input rfl, if_pos (by decide), List.append_assoc, ih,
      List.singleton_append, gather_input rfl, if_neg (by decide), if_pos (by decide),
      if_neg (by omega)]
    simp

/-- The first of several calls is an invocation, whose argument the others are. -/
private theorem move_calls {env : Expansion} {x : Expander} {n k : Nat}
    (hmacros : env.macros = { macros := [.echo] }) (hcondition : env.condition = false)
    (hstack : x.stack = [⟨none, k, calls (n + 1)⟩]) :
    ∃ y, x.move env = .invoke .echo (.word "f") [calls n] y := by
  -- The argument is the inner call as a whole.
  have hcollect : (Stack.collect [⟨none, k + 1, .sign "(" :: (calls n ++ [.sign ")"])⟩]
      .echo).value = some ([calls n], [⟨none, k + 2 + (calls n).length + 1, []⟩]) := by
    unfold Stack.collect
    simp only [next?_input, Option.bind_some]
    rw [show Macro.echo.isVariadic = false from rfl, if_neg (by decide), gather_calls,
      gather_input rfl, if_neg (by decide), if_pos (by decide), if_pos (by decide)]
    simp [Stack.endArgument, Stack.normalArguments, Macro.echo, Macro.params, Macro.accepts,
      Macro.signature?, Signature.accepts]
  have hfind : env.macros.find? "f" = some .echo := by rw [hmacros]; rfl
  unfold Expander.move
  rw [hstack, calls, next?_input]
  simp only [hcondition, Bool.false_and, Bool.false_eq_true, if_false]
  rw [if_neg (by decide), show (Token.word "f").value = "f" from rfl, hfind]
  simp only [show Macro.echo.isFunctionLike = true from rfl, if_true]
  unfold Expander.call
  simp only [Stack.peek?, next?_input, hcollect]
  exact ⟨_, rfl⟩

/-- Calls that are nested one deeper than expansions may be opened inside of one another fail. -/
theorem fails_of_calls (n : Nat) {p : Point} {k : Nat}
    (hmacros : p.env.macros = { macros := [.echo] }) (hcondition : p.env.condition = false)
    (hnesting : p.env.nesting = n) (hstack : p.state.stack = [⟨none, k, calls (n + 1)⟩]) :
    p.Fails .nesting := by
  induction n generalizing p k with
  | zero =>
    obtain ⟨y, hmove⟩ := move_calls hmacros hcondition hstack
    exact Point.Blocked.fails ⟨hnesting, _, _, _, y, hmove, rfl⟩
  | succ n ih =>
    -- The argument of the first call is expanded first, and it has one call less.
    obtain ⟨y, hmove⟩ := move_calls hmacros hcondition hstack
    have hopens : Opens p.env y.stack.length y.produced
        (p.env.forArgument y.stack.length (y.produced + 0))
        (.ofArgument (calls (n + 1)) y.count y.notes) Macro.echo.plainParams [calls (n + 1)] 0
        y.count y.notes := .here rfl (by omega) rfl rfl
    refine Step.fails (.enter (.mk hmove hopens)) (ih ?_ ?_ ?_ rfl)
    · exact hmacros
    · exact hcondition
    · simp [forArgument, hnesting]

private theorem expand_calls (n : Nat) :
    ∃ y, Expander.expand {} (env n) (calls (n + 1)) = .error .nesting y :=
  fails_of_calls n (p := Point.start (env n) {} (calls (n + 1))) rfl rfl rfl rfl []

end Nested

/-- With the bound that holds by default, calls can be nested so deeply that their expansion neither
gives tokens nor exceeds one of the two limits. -/
theorem nested_calls_exceed_host :
    ¬((∃ out y, Expander.expand {} (Nested.env defaultNesting)
          (Nested.calls (defaultNesting + 1)) = .ok out y) ∨
      ∃ e y, Expander.expand {} (Nested.env defaultNesting)
          (Nested.calls (defaultNesting + 1)) = .error e y ∧
        e.IsLimit (Nested.env defaultNesting)) := by
  -- The expansion ends with the error of the host, which is none of the two limits.
  obtain ⟨y, h⟩ := Nested.expand_calls defaultNesting
  rw [h]
  rintro (⟨out, z, hok⟩ | ⟨e, z, herror, hlimit⟩)
  · cases hok
  · cases herror
    exact hlimit

end Expansion

end Preproc
