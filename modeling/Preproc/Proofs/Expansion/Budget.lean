import Preproc.Proofs.Expansion.Limits
import Preproc.Proofs.Expansion.Notes

/-!
# The budget of an expansion

The limit on tokens is a budget that an expansion shares with the expansions of its arguments. An
argument is expanded below what is left of the limit, and what it produces is counted when it is
done. So the levels count for themselves, each below a limit of its own.

A `Record` is kept of all levels in one list: each replacement that is put on a stack, and each
limit that is given to an argument. Followed through the list, what is left of the budget goes down
by each replacement, and each argument is given exactly what is left (`Affords`).

## Key results

- `records_of_preExpand`: the records of the arguments of an invocation
- `records_of_expandFrom`: what an expansion produces is what its records add up to, and the budget
  affords it
- `length_of_expandFrom`: an expansion gives at most what it has to read and what it produces
- `expand_within_budget`: the budget holds through nesting
-/

namespace Preproc

namespace Expansion

/-! ## Records -/

/-- Something that counts towards the limit on tokens. -/
inductive Record where
  /-- The tokens are put on a stack, to replace an invocation. -/
  | pushed (ts : List Token)
  /-- An expansion that works below `limit` and has produced `produced` tokens has an argument
  expanded, below the limit `given`. -/
  | granted (limit : Int) (produced : Nat) (given : Int)

/-- The tokens that are put on a stack. -/
def Record.tokens : Record → List Token
  | .pushed ts => ts
  | .granted _ _ _ => []

/-- How many tokens are put on a stack, on any level. -/
def total (log : List Record) : Nat :=
  (log.flatMap Record.tokens).length

/-- Without records nothing has been put on a stack. -/
@[simp]
theorem total_nil : total [] = 0 := rfl

/-- A replacement counts with all its tokens. -/
@[simp]
theorem total_pushed (ts : List Token) (log : List Record) :
    total (.pushed ts :: log) = ts.length + total log := by
  simp [total, Record.tokens]

/-- A limit that is given counts nothing. -/
@[simp]
theorem total_granted (limit : Int) (produced : Nat) (given : Int) (log : List Record) :
    total (.granted limit produced given :: log) = total log := by
  simp [total, Record.tokens]

/-- Records of two parts of an expansion add up. -/
@[simp]
theorem total_append (log later : List Record) :
    total (log ++ later) = total log + total later := by
  simp [total]

mutual

/-- The records of an expansion from the state on to its end, with those of the arguments that are
expanded on the way. -/
inductive Records : Expansion → Expander → List Record → Prop
  | finish {env : Expansion} {x y : Expander} (hmove : x.move env = .finish y) : Records env x []
  | emit {env : Expansion} {x y : Expander} {t : Token} {log : List Record}
      (hmove : x.move env = .emit t y) (later : Records env y log) : Records env x log
  | replace {env : Expansion} {x y z : Expander} {m : Macro} {site : Token}
      {args : List (List Token)} {ts : List Token} {inner log : List Record}
      (hmove : x.move env = .invoke m site args y)
      (arguments : ArgumentRecords env y.stack.length y.produced m.plainParams args 0 y.count
        y.notes inner)
      (hreplace : y.replace env m site args = .ok () z)
      (hpushed : z.stack = ⟨some m.name, 0, ts⟩ :: y.stack) (later : Records env z log) :
      Records env x (inner ++ .pushed ts :: log)

/-- The records of expanding the arguments of an invocation, as far as they are expanded at all. -/
inductive ArgumentRecords : Expansion → Nat → Nat → List Bool → List (List Token) → Nat → Nat →
    Array Note → List Record → Prop
  | nil {env : Expansion} {depth start : Nat} {plain : List Bool} {produced count : Nat}
      {notes : Array Note} : ArgumentRecords env depth start plain [] produced count notes []
  | expanded {env inner : Expansion} {depth start : Nat} {plain : List Bool} {a : List Token}
      {rest : List (List Token)} {produced count : Nat} {notes : Array Note} {ts : List Token}
      {y : Expander} {log later : List Record} (hplain : plain.headD true = true)
      (hinner : inner = env.forArgument depth (start + produced))
      (ha : expandFrom inner (.ofArgument a count notes) [] = .ok ts y)
      (here : Records inner (.ofArgument a count notes) log)
      (next : ArgumentRecords env depth start plain.tail rest (produced + y.produced) y.count
        y.notes later) :
      ArgumentRecords env depth start plain (a :: rest) produced count notes
        (.granted env.maxTokens (start + produced) inner.maxTokens :: (log ++ later))
  | raw {env : Expansion} {depth start : Nat} {plain : List Bool} {a : List Token}
      {rest : List (List Token)} {produced count : Nat} {notes : Array Note} {log : List Record}
      (hplain : plain.headD true = false)
      (next : ArgumentRecords env depth start plain.tail rest produced count notes log) :
      ArgumentRecords env depth start plain (a :: rest) produced count notes log

end

/-! ## What is left of the budget -/

/-- A budget of `left` tokens affords what is recorded: each replacement fits into what is left, and
each argument is given all that is left, which is the limit of the expansion it is an argument of
less what that has produced. -/
def Affords (left : Int) : List Record → Prop
  | [] => True
  | .pushed ts :: log => (ts.length : Int) ≤ left ∧ Affords (left - ts.length) log
  | .granted limit produced given :: log =>
    given = limit - produced ∧ given = left ∧ 0 ≤ given ∧ Affords left log

/-- A budget affords one part after the other if what is left affords the second. -/
theorem Affords.append {left : Int} {log later : List Record} (h : Affords left log)
    (hlater : Affords (left - total log) later) : Affords left (log ++ later) := by
  induction log generalizing left with
  | nil => simpa using hlater
  | cons r log ih =>
    cases r with
    | pushed ts =>
      obtain ⟨hfits, hrest⟩ := h
      refine ⟨hfits, ih hrest ?_⟩
      rw [total_pushed] at hlater
      rwa [Int.sub_sub, ← Int.natCast_add]
    -- What is granted to an argument is still to be used up.
    | granted limit produced given =>
      obtain ⟨hgiven, hleft, hnonneg, hrest⟩ := h
      rw [total_granted] at hlater
      exact ⟨hgiven, hleft, hnonneg, ih hrest hlater⟩

/-- A limit that is given to an argument is what the records before it leave of the budget. -/
private theorem Affords.granted {left limit given : Int} {produced : Nat}
    {before after : List Record}
    (h : Affords left (before ++ .granted limit produced given :: after)) :
    given = limit - produced ∧ 0 ≤ given ∧ given = left - total before := by
  induction before generalizing left with
  | nil =>
    obtain ⟨hgiven, hleft, hnonneg, -⟩ := h
    exact ⟨hgiven, hnonneg, by simpa using hleft⟩
  | cons r before ih =>
    cases r with
    -- What was pushed before it is no longer left.
    | pushed ts =>
      obtain ⟨hgiven, hnonneg, hleft⟩ := ih h.2
      refine ⟨hgiven, hnonneg, ?_⟩
      rw [total_pushed]
      omega
    | granted _ _ _ =>
      obtain ⟨-, -, -, hrest⟩ := h
      rw [total_granted]
      exact ih hrest

/-- What is recorded is no more than the budget. -/
private theorem Affords.total_le {left : Int} {log : List Record} (h : Affords left log)
    (hleft : 0 ≤ left) : (total log : Int) ≤ left := by
  induction log generalizing left with
  | nil => exact hleft
  | cons r log ih =>
    cases r with
    | pushed ts =>
      obtain ⟨hfits, hrest⟩ := h
      have hle := ih hrest (by omega)
      rw [total_pushed]
      omega
    -- To grant something does not use it up.
    | granted limit produced given =>
      obtain ⟨-, -, -, hrest⟩ := h
      rw [total_granted]
      exact ih hrest hleft

/-- A negative budget affords nothing. -/
theorem Affords.eq_nil {left : Int} {log : List Record} (h : Affords left log)
    (hleft : left < 0) : log = [] := by
  cases log with
  | nil => rfl
  | cons r log =>
    cases r with
    -- Neither kind of record fits below zero.
    | pushed ts =>
      obtain ⟨hfits, -⟩ := h
      omega
    | granted limit produced given =>
      obtain ⟨-, hgiven, hnonneg, -⟩ := h
      omega

/-! ## The records of a run -/

/-- The expansion from `x` on, if it ends in `y`, has records that its budget affords, and has
produced what they add up to. -/
def Accounted (env : Expansion) (x y : Expander) : Prop :=
  ∃ log, Records env x log ∧ y.produced = x.produced + total log ∧
    Affords (env.maxTokens - x.produced) log

/-- Arguments are accounted for one after the other. The limit holds when all of them are expanded,
so it held before each. -/
theorem records_of_preExpand {env : Expansion} {depth start : Nat} {plain : List Bool}
    {args : List (List Token)} {before given : List Argument} {produced count : Nat}
    {notes : Array Note}
    (hopens : ∀ inner x ts y, Opens env depth start inner x plain args produced count notes →
      expandFrom inner x [] = .ok ts y → Accounted inner x y)
    (h : (preExpand env depth plain args before start produced count notes).args = .ok given)
    (hlimit : ((start + (preExpand env depth plain args before start produced count
      notes).produced : Nat) : Int) ≤ env.maxTokens) :
    ∃ log, ArgumentRecords env depth start plain args produced count notes log ∧
      (preExpand env depth plain args before start produced count notes).produced =
        produced + total log ∧
      Affords (env.maxTokens - (start + produced : Nat)) log := by
  induction args generalizing plain before produced count notes with
  | nil =>
    rw [preExpand]
    exact ⟨[], .nil, rfl, trivial⟩
  | cons a rest ih =>
    rcases of_preExpand_cons h with ⟨hplain, hroom, ts, x, hx, heq⟩ | ⟨hplain, heq⟩
    · rw [heq] at h hlimit ⊢
      -- The argument is expanded: its records stand before those of the other arguments.
      obtain ⟨log, hrecords, hproduced, hafford⟩ :=
        hopens _ _ _ _ (.here hplain hroom rfl rfl) hx
      obtain ⟨later, hnext, htotal, hrest⟩ :=
        ih (fun inner z us w hlater => hopens inner z us w (.expanded hplain hx hlater)) h hlimit
      -- The argument's own count starts at nothing, below what is left here.
      have hcount : x.produced = total log := by
        simpa only [Expander.ofArgument, Nat.zero_add] using hproduced
      refine ⟨_, .expanded hplain rfl hx hrecords hnext, ?_, rfl, rfl, ?_, ?_⟩
      · rw [htotal, total_granted, total_append]
        omega
      · simp only [forArgument]
        omega
      · refine Affords.append ?_ ?_
        · simpa only [forArgument, Expander.ofArgument, Int.natCast_zero, Int.sub_zero]
            using hafford
        · have hleft : env.maxTokens - (start + produced : Nat) - total log =
              env.maxTokens - (start + (produced + x.produced) : Nat) := by
            omega
          rwa [hleft]
    · rw [heq] at h hlimit ⊢
      -- The argument is passed on as it is, and has no records.
      obtain ⟨log, hrecords, htotal, hafford⟩ :=
        ih (fun inner z us w hlater => hopens inner z us w (.raw hplain hlater)) h hlimit
      exact ⟨log, .raw hplain hrecords, htotal, hafford⟩

/-- The arguments of an invocation are accounted for, if the limit holds behind them. -/
private theorem records_of_expandArguments {x y : Expander} {env : Expansion} {m : Macro}
    {args : List (List Token)} {given : List Argument}
    (hopens : ∀ inner z ts w, Opens env x.stack.length x.produced inner z m.plainParams args 0
      x.count x.notes → expandFrom inner z [] = .ok ts w → Accounted inner z w)
    (h : x.expandArguments env m args = .ok given y) (hlimit : (y.produced : Int) ≤ env.maxTokens) :
    ∃ log, ArgumentRecords env x.stack.length x.produced m.plainParams args 0 x.count x.notes log ∧
      y.produced = x.produced + total log ∧ Affords (env.maxTokens - x.produced) log := by
  obtain ⟨hpre, -, hproduced⟩ := Expander.preExpand_of_expandArguments h
  rw [hproduced] at hlimit
  obtain ⟨log, hrecords, htotal, hafford⟩ := records_of_preExpand hopens hpre hlimit
  refine ⟨log, hrecords, ?_, hafford⟩
  simp only [hproduced, htotal, Nat.zero_add]

/-- What an expansion produces is what its records add up to, and the budget affords it. -/
theorem records_of_expandFrom (p : Point) {out res : List Token} {y : Expander}
    (h : expandFrom p.env p.state out = .ok res y) : Accounted p.env p.state y := by
  induction p using run_induction generalizing out res y with
  | step p ih =>
    cases hmove : p.state.move p.env with
    | finish z =>
      rw [expandFrom_of_move_finish hmove] at h
      cases h
      exact ⟨[], .finish hmove, Expander.produced_of_move_finish hmove, trivial⟩
    | emit t z =>
      rw [expandFrom_of_move_emit hmove] at h
      obtain ⟨hsame, -⟩ := Expander.remaining_of_move_emit hmove
      -- A token that is given costs nothing.
      obtain ⟨log, hrecords, htotal, hafford⟩ := ih _ (.emit hmove) h
      simp only [hsame] at htotal hafford
      exact ⟨log, .emit hmove hrecords, htotal, hafford⟩
    | invoke m site args z =>
      rw [expandFrom_of_move_invoke hmove] at h
      split at h
      · cases h
      · rename_i w hreplace
        obtain ⟨given, z₁, ts, hr⟩ := Expander.replaced_of_replace hreplace
        obtain ⟨hsame, -⟩ := Expander.weight_of_move_invoke hmove
        -- The limit is looked at behind the arguments, and what they produced counts then.
        have hw := hr.produced
        have hlimit := hr.length
        obtain ⟨inner, harguments, hinner, hafford⟩ :=
          records_of_expandArguments
            (fun _ _ _ _ hopens hx => ih _ (.enter ⟨hmove, hopens⟩) hx) hr.expanded (by omega)
        obtain ⟨log, hrecords, htotal, hlater⟩ := ih _ (.replace hmove hreplace) h
        simp only at htotal hlater
        rw [hsame] at hinner hafford
        refine ⟨_, .replace hmove harguments hreplace hr.stack hrecords, ?_, ?_⟩
        · rw [total_append, total_pushed]
          omega
        · have hleft : p.env.maxTokens - p.state.produced - total inner -
              (Expander.relocated m site ts).length = p.env.maxTokens - w.produced := by
            omega
          refine hafford.append ⟨by omega, ?_⟩
          rwa [hleft]

/-! ## The length of the result -/

/-- An expansion gives at most what it has to read and what it produces. -/
theorem length_of_expandFrom (p : Point) {out res : List Token} {y : Expander}
    (h : expandFrom p.env p.state out = .ok res y) :
    res.length + p.state.produced ≤
      out.length + Stack.remaining p.state.stack + y.produced := by
  induction p using run_induction generalizing out res y with
  | step p ih =>
    cases hmove : p.state.move p.env with
    | finish z =>
      rw [expandFrom_of_move_finish hmove] at h
      cases h
      have hsame := Expander.produced_of_move_finish hmove
      simp only [List.length_reverse]
      omega
    | emit t z =>
      rw [expandFrom_of_move_emit hmove] at h
      obtain ⟨hsame, hremaining⟩ := Expander.remaining_of_move_emit hmove
      have hlater := ih _ (.emit hmove) h
      simp only [List.length_cons] at hlater
      omega
    | invoke m site args z =>
      rw [expandFrom_of_move_invoke hmove] at h
      split at h
      · cases h
      · rename_i w hreplace
        -- What the arguments produce is counted too, so there is room to spare.
        obtain ⟨given, z₁, ts, hr⟩ := Expander.replaced_of_replace hreplace
        obtain ⟨-, hgrows, -⟩ := Expander.of_expandArguments hr.expanded
        obtain ⟨hsame, hremaining⟩ := Expander.weight_of_move_invoke hmove
        have hw := hr.produced
        have hlater := ih _ (.replace hmove hreplace) h
        simp only [hr.stack, Stack.remaining] at hlater
        omega

/-! ## The budget of an expansion -/

/-- The budget holds through nesting. When an expansion that had produced nothing before comes to
its end, the tokens it has produced are those put on its stack and on the stacks of all expansions
of arguments inside of it. They are no more than the limit allows; if that is negative, nothing has
been replaced. The result is longer than the input by no more than what has been produced. And every
expansion of an argument is given the limit of its invoker less what that has produced, which is
what is left of the whole budget and never negative. -/
theorem expand_within_budget (env : Expansion) {x y : Expander} {ts out : List Token}
    (hfresh : x.produced = 0) (h : x.expand env ts = .ok out y) :
    ∃ log, Records env (Point.start env x ts).state log ∧ y.produced = total log ∧
      (0 ≤ env.maxTokens → (y.produced : Int) ≤ env.maxTokens) ∧
      (env.maxTokens < 0 → log = []) ∧
      out.length ≤ ts.length + y.produced ∧
      ∀ (before : List Record) (limit : Int) (produced : Nat) (given : Int) (after : List Record),
        log = before ++ .granted limit produced given :: after →
          given = limit - produced ∧ 0 ≤ given ∧ given = env.maxTokens - total before := by
  obtain ⟨log, hrecords, htotal, hafford⟩ := records_of_expandFrom (Point.start env x ts) h
  have hlength := length_of_expandFrom (Point.start env x ts) h
  -- At the start nothing is produced, so all of the limit is left.
  simp only [Point.start, hfresh, Int.natCast_zero, Int.sub_zero, Nat.zero_add] at htotal hafford
  simp only [Point.start, hfresh, Stack.remaining, List.length_nil] at hlength
  refine ⟨log, hrecords, htotal, ?_, ?_, by omega, ?_⟩
  · intro hlimit
    rw [htotal]
    exact hafford.total_le hlimit
  · exact hafford.eq_nil
  · rintro before limit produced given after rfl
    exact hafford.granted

open Tight in
/-- With the least limit that suffices, the whole budget of eighteen tokens is spent, on arguments
within arguments too. -/
theorem expand_within_budget_tight :
    result? (env.withLimits 5 17) = none ∧
    ∃ out y, Expander.expand {} env input = .ok out y ∧
      out.map (·.value) = ["0", "f", "0", "f", "0", "f", "0"] ∧ y.produced = 18 ∧
      ∃ log, Records env (Point.start env {} input).state log ∧ y.produced = total log ∧
        (0 ≤ env.maxTokens → (y.produced : Int) ≤ env.maxTokens) ∧
        (env.maxTokens < 0 → log = []) ∧
        out.length ≤ input.length + y.produced ∧
        ∀ (before : List Record) (limit : Int) (produced : Nat) (given : Int) (after : List Record),
          log = before ++ .granted limit produced given :: after →
            given = limit - produced ∧ 0 ≤ given ∧ given = env.maxTokens - total before := by
  -- One token less and the same expansion fails.
  have hresult : result? (env.withLimits 5 17) = none ∧
      result? env = some (["0", "f", "0", "f", "0", "f", "0"], 18, 1) := by
    decide +kernel
  obtain ⟨hshort, hok⟩ := hresult
  obtain ⟨out, y, hexpand, hout, hproduced⟩ := exists_of_result? hok
  exact ⟨hshort, out, y, hexpand, hout, hproduced, expand_within_budget env rfl hexpand⟩

open Tight in
/-- The limit is looked at only when something is replaced: a name that is not defined is passed on
below a negative limit, and even no token at all exceeds that. -/
theorem expand_past_negative_limit :
    ∃ out y, Expander.expand {} { macros := {}, maxTokens := -1 } input = .ok out y ∧
      y.produced = 0 ∧ ¬(y.produced : Int) ≤ -1 := by
  have hok : result? { macros := {}, maxTokens := -1 } = some (["g"], 0, 0) := by
    decide +kernel
  obtain ⟨out, y, hexpand, -, hproduced⟩ := exists_of_result? hok
  exact ⟨out, y, hexpand, hproduced, by omega⟩

end Expansion

end Preproc
