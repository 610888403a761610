import Preproc.Token

/-!
# The operand of `defined`

In a condition the operator `defined` asks about a name, which may stand in parentheses.
-/

namespace Preproc

/-- The name that follows the operator `defined`, and how many tokens it takes. -/
def definedOperand? : List Token → Option (String × Nat)
  | [] => none
  | t :: rest =>
    if t.isName then some (t.value, 1)
    else
      match rest with
      | u :: v :: _ =>
        if t.isPunctuator "(" && u.isName && v.isPunctuator ")" then some (u.value, 3) else none
      | _ => none

end Preproc
