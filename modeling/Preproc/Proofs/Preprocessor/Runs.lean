import Preproc.Proofs.Preprocessor.Strictness
import Preproc.Proofs.Samples

/-!
# Following a run

The states that a run comes to, and two functions that follow a run for a given number of steps. A
run recurs on an order that does not compute; these recur on the number, and can be evaluated.

## Key results

- `runFrom_of_runWithin`: a run that ends within some number of steps ends in that way
- `of_allStates`: a test that was passed in every state on the way holds in every state
-/

namespace Preproc

namespace Preprocessor

/-- The run comes from `p` to `q`. -/
inductive Reaches : Preprocessor → Preprocessor → Prop
  | refl (p : Preprocessor) : Reaches p p
  | step {p q r : Preprocessor} {out : List Token} (first : p.step = .more q out)
      (rest : Reaches q r) : Reaches p r

/-- A run with the default settings that has not been started, on a disk without files. -/
def bare : Preprocessor :=
  .ofConfig {} (.ofTexts []) .sample

/-! ## Bounded runs -/

/-- How the run ends that starts at `p`, if it takes fewer than `n` steps; `out` holds the tokens
produced so far, newest first. -/
def runWithin : Nat → Preprocessor → Joiner → List Token → Option Finished
  | 0, _, _, _ => none
  | n + 1, p, j, out =>
    match p.step with
    | .done q => some ⟨out.reverse ++ j.flush, none, q⟩
    | .failed cause q => some ⟨out.reverse, some cause, q⟩
    | .more q ts => runWithin n q (j.pushAll out ts).2 (j.pushAll out ts).1

/-- A run that ends within some number of steps ends in that way. -/
theorem runFrom_of_runWithin {n : Nat} {p : Preprocessor} {j : Joiner} {out : List Token}
    {f : Finished} (h : runWithin n p j out = some f) : p.runFrom j out = f := by
  induction n generalizing p j out with
  | zero => cases h
  | succ n ih =>
    unfold runWithin at h
    -- The two functions do the same with each result of a step.
    cases hstep : p.step with
    | done q =>
      rw [hstep] at h
      rw [runFrom_of_done hstep]
      exact Option.some.inj h
    | failed e q =>
      rw [hstep] at h
      rw [runFrom_of_failed hstep]
      exact Option.some.inj h
    | more q ts =>
      rw [hstep] at h
      rw [runFrom_of_more hstep]
      exact ih h

/-- How a run on the text of a main file ends, if it takes fewer than `n` steps. -/
def runTextWithin (n : Nat) (p : Preprocessor) (file : String) (text : List Char) :
    Option Finished :=
  p.start file text |>.toOption.bind fun q => runWithin n q {} []

/-- A run on a text that ends within a number of steps is the run on that text. -/
theorem runText_of_runTextWithin {n : Nat} {p : Preprocessor} {file : String} {text : List Char}
    {f : Finished} (h : p.runTextWithin n file text = some f) : p.runText file text = f := by
  unfold runTextWithin at h
  unfold runText
  cases hstart : p.start file text with
  -- A run that cannot start gives nothing, within any number of steps.
  | error e =>
    rw [hstart] at h
    cases h
  | ok q =>
    rw [hstart] at h
    exact runFrom_of_runWithin h

/-- Whether the run that starts at `p` takes fewer than `n` steps, and passes a test in every
state. -/
def allStates (test : Preprocessor → Bool) : Nat → Preprocessor → Bool
  | 0, _ => false
  | n + 1, p =>
    test p &&
      match p.step with
      | .more q _ => allStates test n q
      | _ => true

/-- A test that was passed in every state on the way holds in every state. -/
theorem of_allStates {test : Preprocessor → Bool} {n : Nat} {p q : Preprocessor}
    (h : allStates test n p = true) (hrun : Reaches p q) : test q = true := by
  induction hrun generalizing n with
  | refl p =>
    cases n with
    | zero => cases h
    | succ n => exact (Bool.and_eq_true_iff.1 h).1
  -- The first state has been tested, and the others are those of the next.
  | step first _ ih =>
    cases n with
    | zero => cases h
    | succ n =>
      have hrest := (Bool.and_eq_true_iff.1 h).2
      rw [first] at hrest
      exact ih hrest

end Preprocessor

end Preproc
