import Preproc.Directive.Grammar
import Preproc.Proofs.Expansion.Room
import Preproc.Proofs.Expansion.Totality

/-!
# The limits of an expansion

The limits decide whether an expansion ends in time, and nothing else. An expansion that stays below
them does not see them: with higher limits it gives the same tokens, and is left in the same state.
One that gives tokens only with higher limits has exceeded one of its own.

The expansions of arguments work below what is left of the limits, so the numbers differ at every
level; `MoreRoom` is what the levels have in common.

## Key results

- `moreRoom_of_le`: higher limits are more room
- `expand_of_higher_limits`: limits only cut off
-/

namespace Preproc

namespace Expansion

/-- The expansion with other limits. -/
def withLimits (env : Expansion) (depth tokens : Int) : Expansion :=
  { env with maxDepth := depth, maxTokens := tokens }

/-- Higher limits are more room. -/
theorem moreRoom_of_le {env : Expansion} {depth tokens : Int} (hdepth : env.maxDepth ≤ depth)
    (htokens : env.maxTokens ≤ tokens) : MoreRoom env (env.withLimits depth tokens) where
  macros := rfl
  condition := rfl
  nesting := rfl
  tokens := htokens
  streams := by
    -- As many streams wait for the one as for the other.
    simp only [withLimits]
    omega

/-- With more room for tokens and streams arguments can be nested no deeper than without, so an
expansion that comes to an argument that cannot be expanded does so with more room too. -/
private theorem fails_of_roomier {p p' q : Point} (h : p.Roomier p') (hreach : Reaches p q)
    (hblocked : q.Blocked) : p'.Fails .nesting := by
  obtain ⟨q', hreach', hroomier⟩ := reaches_of_roomier h hreach
  obtain ⟨hfull, m, site, args, y, hmove, hasks⟩ := hblocked
  refine hreach'.fails (Point.Blocked.fails ⟨?_, m, site, args, y, ?_, hasks⟩)
  · rw [hroomier.room.nesting]
    exact hfull
  · rw [hroomier.state, hroomier.room.move_eq]
    exact hmove

/-- Limits only cut off. What an expansion gives, it gives with higher limits too: the same tokens,
and the same state, in which as many tokens have been produced and the counting macro has been used
as often. What is given only with higher limits is cut off at a limit. -/
theorem expand_of_higher_limits (env : Expansion) {depth tokens : Int}
    (hdepth : env.maxDepth ≤ depth) (htokens : env.maxTokens ≤ tokens) (x : Expander)
    (ts out : List Token) (y : Expander) :
    (x.expand env ts = .ok out y → x.expand (env.withLimits depth tokens) ts = .ok out y) ∧
    (x.expand (env.withLimits depth tokens) ts = .ok out y →
      x.expand env ts = .ok out y ∨ ∃ e z, x.expand env ts = .error e z ∧ e.IsLimit env) := by
  have hroom := moreRoom_of_le hdepth htokens
  constructor
  · intro hok
    exact hroom.expandFrom_ok _ hok
  · intro hhigher
    cases hresult : x.expand env ts with
    | ok out' y' =>
      -- With the higher limits there is one result, and it is this one.
      have hsame : x.expand (env.withLimits depth tokens) ts = .ok out' y' :=
        hroom.expandFrom_ok _ hresult
      rw [hsame] at hhigher
      exact .inl hhigher
    | error e z =>
      rcases cause_of_expandFrom (Point.start env x ts) hresult with
        hlimit | ⟨-, q, hreach, hblocked⟩
      · exact .inr ⟨e, z, rfl, hlimit⟩
      · -- The higher limits would not have helped, but they did.
        have hroomier : (Point.start env x ts).Roomier
            (Point.start (env.withLimits depth tokens) x ts) := ⟨rfl, hroom⟩
        obtain ⟨w, hfail⟩ := fails_of_roomier hroomier hreach hblocked []
        cases hhigher.symm.trans hfail

namespace Tight

/-- The macro `f(x)` stands for `x f x`, and `g` for an invocation of `f` inside of another. The
limits are those that expanding `g` needs. -/
def env : Expansion :=
  { macros :=
      { macros :=
          .builtin "__COUNTER__" .counter ::
            ["f(x) x f x", "g f(f(__COUNTER__))"].filterMap fun d =>
              (Macro.ofText d).value.toOption }
    maxDepth := 5
    maxTokens := 18 }

/-- The tokens of `g`. -/
def input : List Token :=
  tokensOf "g"

/-- What an expansion of `g` gives: the texts of the tokens, how many were produced, and how often
the counting macro was used. -/
def result? (env : Expansion) : Option (List String × Nat × Nat) :=
  match Expander.expand {} env input with
  | .ok out y => some (out.map (·.value), y.produced, y.count)
  | .error _ _ => none

/-- What is shown of a result is that of an expansion that comes to its end. -/
theorem exists_of_result? {env : Expansion} {texts : List String} {produced count : Nat}
    (h : result? env = some (texts, produced, count)) :
    ∃ out y, Expander.expand {} env input = .ok out y ∧ out.map (·.value) = texts ∧
      y.produced = produced := by
  unfold result? at h
  split at h
  · rename_i out y hexpand
    cases h
    exact ⟨out, y, hexpand, rfl, rfl⟩
  · cases h

end Tight

open Tight in
/-- The limits are the least that suffice, and raising both changes nothing. -/
theorem expand_of_higher_limits_tight :
    env.maxDepth ≤ 200 ∧ env.maxTokens ≤ 1000000 ∧
    result? (env.withLimits 4 18) = none ∧ result? (env.withLimits 5 17) = none ∧
    ∃ out y, Expander.expand {} env input = .ok out y ∧
      (out.map (·.value), y.produced, y.count) = (["0", "f", "0", "f", "0", "f", "0"], 18, 1) ∧
      Expander.expand {} (env.withLimits 200 1000000) input = .ok out y := by
  -- Neither limit can be one less.
  have hresult : result? (env.withLimits 4 18) = none ∧ result? (env.withLimits 5 17) = none ∧
      result? env = some (["0", "f", "0", "f", "0", "f", "0"], 18, 1) := by
    decide +kernel
  obtain ⟨hdepth, htokens, hok⟩ := hresult
  refine ⟨by decide, by decide, hdepth, htokens, ?_⟩
  unfold result? at hok
  split at hok
  · rename_i out y hexpand
    refine ⟨out, y, hexpand, Option.some.inj hok, ?_⟩
    exact (expand_of_higher_limits env (by decide) (by decide) {} input out y).1 hexpand
  · cases hok

end Expansion

end Preproc
