/-!
# Lemmas for the standard library

Facts about lists and about results that may fail. They say nothing about programs, and are used
wherever lists are cut into pieces and where a value comes of several steps.
-/

namespace List

/-- Where a list is cut in two ways, one of them at an element, that element is in the first part of
the other cut or in the second. -/
theorem append_eq_append_cons {α : Type} {xs ys l r : List α} {t : α}
    (h : xs ++ ys = l ++ t :: r) :
    (∃ a, xs = l ++ t :: a ∧ r = a ++ ys) ∨ ∃ a, l = xs ++ a ∧ ys = a ++ t :: r := by
  obtain ⟨a, hl, hys⟩ | ⟨a, hxs, hr⟩ := append_eq_append_iff.1 h
  · exact .inr ⟨a, hl, hys⟩
  · cases a with
    | nil => exact .inr ⟨[], by simpa using hxs.symm, hr.symm⟩
    | cons u a =>
      obtain ⟨rfl, rfl⟩ := cons.inj hr
      exact .inl ⟨a, hxs, rfl⟩

/-- Of two lists that do not both have a first element, one is empty. -/
theorem nil_or_nil_of_not_cons {α β : Type} {xs : List α} {ys : List β}
    (h : ∀ x xs' y ys', xs = x :: xs' → ys = y :: ys' → False) : xs = [] ∨ ys = [] := by
  cases xs with
  | nil => exact .inl rfl
  | cons x xs =>
    cases ys with
    | nil => exact .inr rfl
    | cons y ys => exact (h x xs y ys rfl rfl).elim

end List

namespace Except

/-- A value in two steps has a value in the first. -/
theorem of_bind_ok {ε α β : Type} {x : Except ε α} {f : α → Except ε β} {b : β}
    (h : x >>= f = .ok b) : ∃ a, x = .ok a ∧ f a = .ok b := by
  cases x with
  | error e => cases h
  | ok a => exact ⟨a, rfl, h⟩

/-- A result that has a value is this value. -/
theorem eq_ok_of_toOption {ε α : Type} {x : Except ε α} {a : α} (h : x.toOption = some a) :
    x = .ok a := by
  cases x with
  | ok b => exact congrArg Except.ok (Option.some.inj h)
  | error e => cases h

end Except
