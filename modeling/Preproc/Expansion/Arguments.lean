import Preproc.Expansion.Stack
import Preproc.Macro

/-!
# Collecting the arguments of an invocation

The argument list that follows a macro's name is read up to its closing parenthesis and split at the
commas outside of inner parentheses; a variable argument takes the remaining commas. If the list is
not closed, or the macro does not take so many arguments, nothing is read.

The tokens of the arguments, with one more for each argument, and the tokens left unread are fewer
than the tokens before (`weight_of_collect`).
-/

namespace Preproc

namespace Stack

/-- The arguments read before, newest first, with the one whose tokens are `current`, newest
first. -/
def endArgument (before : List (List Token)) (current : List Token) : List (List Token) :=
  current.reverse :: before

/-- Reads arguments inside `depth` open parentheses. The arguments `before`, and the tokens
`current` of the argument being read, are newest first; `limit` is the number of arguments after
which commas no longer separate. `none` if the list is not closed. -/
def gather (limit : Option Nat) (depth : Nat) (before : List (List Token)) (current : List Token)
    (s : Stack) : Option (List (List Token) × Stack) :=
  match _h : s.next? with
  | none => none
  | some (t, s₁) =>
    if t.isPunctuator "," && depth = 1 && limit ≠ some (before.length + 1) then
      gather limit depth (endArgument before current) [] s₁
    else if t.isPunctuator "(" then gather limit (depth + 1) before (t :: current) s₁
    else if t.isPunctuator ")" then
      if depth ≤ 1 then some ((endArgument before current).reverse, s₁)
      else gather limit (depth - 1) before (t :: current) s₁
    else gather limit depth before (t :: current) s₁
termination_by s.remaining
decreasing_by
  all_goals
    have hr := remaining_of_next? _h
    omega

/-- How much is still to be expanded in a list of arguments: their tokens, and one for each. -/
def weight : List (List Token) → Nat
  | [] => 0
  | a :: args => a.length + 1 + weight args

private theorem weight_append (args more : List (List Token)) :
    weight (args ++ more) = weight args + weight more := by
  induction args with
  | nil => simp [weight]
  | cons a args ih => simp only [List.cons_append, weight, ih]; omega

private theorem weight_reverse (args : List (List Token)) : weight args.reverse = weight args := by
  induction args with
  | nil => rfl
  | cons a args ih => simp only [List.reverse_cons, weight_append, weight, ih]; omega

private theorem weight_endArgument (before : List (List Token)) (current : List Token) :
    weight (endArgument before current) = weight before + current.length + 1 := by
  simp [weight, endArgument]
  omega

theorem weight_of_gather {limit : Option Nat} {depth : Nat} {before : List (List Token)}
    {current : List Token} {s s' : Stack} {args : List (List Token)}
    (h : gather limit depth before current s = some (args, s')) :
    weight args + s'.remaining ≤ weight before + current.length + s.remaining := by
  fun_induction gather limit depth before current s with
  | case1 => simp at h
  | case2 depth before current s t s₁ hn _ ih =>
    have := remaining_of_next? hn
    have := ih h
    simp [weight_endArgument] at this
    omega
  | case3 depth before current s t s₁ hn _ _ ih =>
    have := remaining_of_next? hn
    have := ih h
    simp at this
    omega
  | case4 depth before current s t s₁ hn _ _ _ _ =>
    have := remaining_of_next? hn
    simp only [Option.some.injEq, Prod.mk.injEq] at h
    obtain ⟨rfl, rfl⟩ := h
    rw [weight_reverse, weight_endArgument]
    omega
  | case5 depth before current s t s₁ hn _ _ _ _ ih =>
    have := remaining_of_next? hn
    have := ih h
    simp at this
    omega
  | case6 depth before current s t s₁ hn _ _ _ ih =>
    have := remaining_of_next? hn
    have := ih h
    simp at this
    omega

/-- The arguments of an invocation of `m`, as its closed argument list gives them: a macro without
parameters has none between empty parentheses. -/
def normalArguments (m : Macro) (args : List (List Token)) : List (List Token) :=
  if m.params.isEmpty && args = [[]] then [] else args

/-- Reads the argument list of an invocation of `m`, whose opening parenthesis comes next. -/
def collect (s : Stack) (m : Macro) : Noted (Option (List (List Token) × Stack)) :=
  let limit := if m.isVariadic then some m.params.length else none
  match s.next?.bind fun (_, s₁) => gather limit 1 [] [] s₁ with
  | none => ⟨none, [.openArguments m.name]⟩
  | some (found, s') =>
    let args := normalArguments m found
    if m.accepts args.length then pure (some (args, s'))
    else ⟨none, [.argumentCount m.name m.params.length args.length]⟩

theorem weight_normalArguments_le (m : Macro) (args : List (List Token)) :
    weight (normalArguments m args) ≤ weight args := by
  unfold normalArguments
  split
  · simp [weight]
  · exact Nat.le_refl _

/-- The arguments and what is left weigh less than what was there. -/
theorem weight_of_collect {s s' : Stack} {m : Macro} {args : List (List Token)}
    (h : (s.collect m).value = some (args, s')) :
    weight args + s'.remaining < s.remaining := by
  unfold collect at h
  simp only at h
  split at h
  · simp at h
  · rename_i found s₂ hfound
    split at h
    · simp at h
      obtain ⟨rfl, rfl⟩ := h
      obtain ⟨⟨t, s₁⟩, hnext, hgather⟩ := Option.bind_eq_some_iff.1 hfound
      have := remaining_of_next? hnext
      have := weight_of_gather hgather
      have := weight_normalArguments_le m found
      simp [weight] at *
      omega
    · simp at h

end Stack

end Preproc
