import Preproc.Proofs.Expression.Arithmetic
import Preproc.Proofs.Expression.Completeness
import Preproc.Proofs.ForStd
import Preproc.Proofs.Samples

/-!
# The type of an expression

The usual arithmetic conversions give every expression a type, signed or unsigned, by its form alone
(`Expr.unsigned`). Evaluation carries the type with the word. The two agree wherever an operation
has a result. An operation that is not evaluated may have none; it then counts as a signed zero,
whatever its operands are, and its type is lost. The expression with a zero in each such place
(`Expr.voided`) is worth the same, and the word has the type of that expression.

So a word that is unsigned always has the type of the expression, and a signed one may be all that
is left of an expression that is not: the other branch of `?:` gives the word its type too.

## Key results

- `Constant.unsigned_of_integer`: the type of a constant, by its suffix and its value
- `Expr.rated_of_eval`: the type of what an expression is worth
- `Expression.signedness_of_eval`: the type of what is read
-/

namespace Preproc

/-! ## Constants -/

namespace Word

/-- A signed word stands for less than the bound of the signed range. -/
private theorem lt_signedBound {w : Word} (h : w.unsigned = false) : w.toInt < signedBound := by
  have hrange := inRange_toInt w
  rw [h] at hrange
  exact hrange.2

end Word

namespace Constant

/-- The suffixes that make a constant unsigned, in lower case. -/
def unsignedSuffixes : List (List Char) :=
  [['u'], ['u', 'l'], ['l', 'u'], ['u', 'l', 'l'], ['l', 'l', 'u']]

/-- Whether a constant has a suffix that makes it unsigned, in any case of letters. -/
def hasUnsignedSuffix (spelling : String) : Bool :=
  unsignedSuffixes.any (·.isSuffixOf ((spelling.toList.filter (· ≠ '\'')).map Char.toLower))

/-- The suffix that is split off makes a constant unsigned just if one that does so ends the text.
-/
private theorem unsigned_splitSuffix (cs : List Char) :
    (splitSuffix cs).2 = unsignedSuffixes.any (·.isSuffixOf (cs.map Char.toLower)) := by
  have hfound : (splitSuffix cs).2 =
      ((suffixes.find? (·.1.isSuffixOf (cs.map Char.toLower))).map (·.2)).getD false := by
    unfold splitSuffix
    split
    · rename_i s u hfind
      rw [hfind]
      rfl
    · rename_i hnone
      rw [hnone]
      rfl
  rw [hfound]
  generalize cs.map Char.toLower = ds
  -- What ends in `ll` does not end in `u`; a suffix that ends in another comes before it.
  have hlast : ['l', 'l'].isSuffixOf ds = true → ['u'].isSuffixOf ds = false := by
    intro hll
    rw [← Bool.not_eq_true]
    intro hu
    obtain ⟨xs, rfl⟩ := List.isSuffixOf_iff_suffix.1 hll
    obtain ⟨ys, hys⟩ := List.isSuffixOf_iff_suffix.1 hu
    have hget := congrArg List.getLast? hys
    simp at hget
  simp only [suffixes, unsignedSuffixes, List.find?_cons, List.find?_nil, List.any_cons,
    List.any_nil]
  revert hlast
  generalize ['u', 'l', 'l'].isSuffixOf ds = ull
  generalize ['l', 'l', 'u'].isSuffixOf ds = llu
  generalize ['u', 'l'].isSuffixOf ds = ul
  generalize ['l', 'u'].isSuffixOf ds = lu
  generalize ['l', 'l'].isSuffixOf ds = ll
  generalize ['u'].isSuffixOf ds = u
  generalize ['l'].isSuffixOf ds = l
  -- What is left are truth values, of which there are few.
  revert ull llu ul lu ll u l
  decide

/-- A constant is unsigned by its suffix, or because it is beyond the signed range. -/
theorem unsigned_of_integer {spelling : String} {w : Word} (h : integer spelling = .ok w) :
    w.unsigned = true ↔ hasUnsignedSuffix spelling = true ∨ Word.signedBound ≤ w.toInt := by
  rw [hasUnsignedSuffix, ← unsigned_splitSuffix]
  unfold integer at h
  simp only at h
  split at h
  · cases h
  · rename_i n hn
    split at h
    · cases h
    · rename_i hlt
      generalize (splitSuffix (spelling.toList.filter (· ≠ '\''))).2 = suffix at h ⊢
      obtain rfl := Except.ok.inj h
      constructor
      · intro htype
        cases suffix with
        | true => exact .inl rfl
        | false =>
          -- Without such a suffix only a value beyond the signed range is unsigned.
          have hlarge : Word.signedBound ≤ n := of_decide_eq_true htype
          have hrange : Word.InRange true n := by
            unfold Word.signedBound at hlarge
            unfold Word.unsignedBound at hlt
            rw [Word.inRange_unsigned]
            omega
          rw [Bool.false_or, decide_eq_true hlarge, Word.toInt_ofInt hrange]
          exact .inr hlarge
      · rintro (rfl | hlarge)
        · rfl
        · -- A signed word stands for no value beyond its range.
          by_contra hsigned
          have hsmall := Word.lt_signedBound (Bool.not_eq_true _ ▸ hsigned)
          omega

/-- A single code is signed. -/
private theorem unsigned_of_singleCode {plain : Bool} {code : Nat} {w : Word}
    (h : singleCode plain code = .ok w) : w.unsigned = false := by
  unfold singleCode at h
  simp only at h
  -- A code may stand for a negative number, and has the signed type in any case.
  split at h
  · split at h
    · cases h
    · obtain rfl := Except.ok.inj h
      rfl
  · split at h
    · cases h
    · obtain rfl := Except.ok.inj h
      rfl

/-- Characters are signed. -/
private theorem unsigned_of_character {spelling : String} {w : Word}
    (h : character spelling = .ok w) : w.unsigned = false := by
  unfold character at h
  simp only at h
  split at h
  · cases h
  · rename_i q rest _
    split at h
    · cases h
    · -- One character or several, the type is the same.
      obtain ⟨codes, -, h⟩ := Except.of_bind_ok h
      split at h
      · exact unsigned_of_singleCode h
      · obtain rfl := Except.ok.inj h
        rfl

end Constant

/-! ## Operators -/

namespace LeftOp

/-- Whether the result is unsigned, when the operands are or are not. -/
def unsigned : LeftOp → Bool → Bool → Bool
  | or, _, _ | and, _, _ => false
  | arithmetic op, u, v => op.unsigned u v

/-- Whether the operator has a result for two words. -/
def hasResult (op : LeftOp) (a b : Word) : Bool :=
  (op.combine false a b).isOk

/-- A result has the type that the types of the operands say. -/
private theorem unsigned_of_combine {op : LeftOp} {a b w : Word}
    (h : op.combine false a b = .ok w) : w.unsigned = op.unsigned a.unsigned b.unsigned := by
  cases op with
  | or | and =>
    obtain rfl := Except.ok.inj h
    rfl
  | arithmetic op =>
    rw [combine, Word.apply_evaluated] at h
    exact Word.unsigned_of_binary h

/-- Where an operation has a result, it does not matter whether it is evaluated. -/
private theorem combine_of_hasResult {op : LeftOp} {skip : Bool} {a b w : Word}
    (h : op.combine skip a b = .ok w) (hresult : op.hasResult a b = true) :
    op.combine false a b = .ok w := by
  cases op with
  | or | and => exact h
  | arithmetic op =>
    unfold hasResult combine Expression.apply at *
    cases hbinary : Word.binary op a b with
    | ok r => simpa [hbinary] using h
    | error e => simp [hbinary, Except.isOk, Except.toBool] at hresult

/-- Where nothing is evaluated, an operation without a result is a signed zero. -/
private theorem combine_of_not_hasResult {op : LeftOp} {skip : Bool} {a b w : Word}
    (h : op.combine skip a b = .ok w) (hresult : op.hasResult a b = false) : w = .ofInt 0 := by
  cases op with
  | or | and => cases hresult
  | arithmetic op =>
    unfold hasResult combine Expression.apply at *
    cases hbinary : Word.binary op a b with
    | ok r => simp [hbinary, Except.isOk, Except.toBool] at hresult
    -- An operation that fails is an error, unless it is skipped.
    | error e =>
      cases skip with
      | false => simp [hbinary] at h
      | true => simpa [hbinary, eq_comm] using h

/-- An unsigned operand never makes a result signed. -/
private theorem unsigned_mono (op : LeftOp) {u u' v v' : Bool} (hu : u = true → u' = true)
    (hv : v = true → v' = true) (h : op.unsigned u v = true) : op.unsigned u' v' = true := by
  cases op with
  | or | and => cases h
  | arithmetic op => cases op <;> simp_all [unsigned, BinaryOp.unsigned] <;> tauto

end LeftOp

namespace Expr

/-- Whether the expression is unsigned by the usual arithmetic conversions. -/
def unsigned : Expr → Bool
  | constant w => w.unsigned
  | name _ | call _ _ => false
  | unary op e => op.unsigned e.unsigned
  | binary op a b => op.unsigned a.unsigned b.unsigned
  | conditional _ a b => a.unsigned || b.unsigned

/-- What an expression is worth, or zero. -/
def worth (e : Expr) (skip : Bool) : Word :=
  match e.eval skip with
  | .ok w => w
  | .error _ => .ofInt 0

/-- The expression with a zero for every operation without a result. -/
def voided : Expr → (skip : Bool) → Expr
  | constant w, _ => constant w
  | name value, _ => name value
  | call callee args, _ => call callee args
  | unary op e, skip => unary op (e.voided skip)
  | binary op a b, skip =>
    let x := a.worth skip
    let y := b.worth (op.skips skip x)
    if op.hasResult x y then binary op (a.voided skip) (b.voided (op.skips skip x))
    else constant (.ofInt 0)
  | conditional c a b, skip =>
    let x := c.worth skip
    conditional (c.voided skip) (a.voided (skip || !x.isTrue)) (b.voided (skip || x.isTrue))

/-- The word has the type of the expression, but for operations without a result: it is worth the
expression with a zero in each of their places, and has the type of that one. It is never unsigned
where the expression is signed. -/
structure Rated (e : Expr) (skip : Bool) (w : Word) : Prop where
  value : (e.voided skip).eval skip = .ok w
  type : w.unsigned = (e.voided skip).unsigned
  unsigned : w.unsigned = true → e.unsigned = true

private theorem worth_of_eval {e : Expr} {skip : Bool} {w : Word} (h : e.eval skip = .ok w) :
    e.worth skip = w := by
  rw [worth, h]

/-- The value of an operator before its operand comes from that of the operand. -/
private theorem of_eval_unary {op : UnaryOp} {e : Expr} {skip : Bool} {w : Word}
    (h : (unary op e).eval skip = .ok w) : ∃ x, e.eval skip = .ok x ∧ Word.unary op x = w := by
  rw [eval] at h
  obtain ⟨x, hx, h⟩ := Except.of_bind_ok h
  exact ⟨x, hx, Except.ok.inj h⟩

/-- The value of an operator between its operands comes from those of both. -/
private theorem of_eval_binary {op : LeftOp} {a b : Expr} {skip : Bool} {w : Word}
    (h : (binary op a b).eval skip = .ok w) :
    ∃ x y, a.eval skip = .ok x ∧ b.eval (op.skips skip x) = .ok y ∧
      op.combine skip x y = .ok w := by
  rw [eval] at h
  obtain ⟨x, hx, h⟩ := Except.of_bind_ok h
  obtain ⟨y, hy, h⟩ := Except.of_bind_ok h
  exact ⟨x, y, hx, hy, h⟩

/-- The value of a conditional comes from those of its three operands. -/
private theorem of_eval_conditional {c a b : Expr} {skip : Bool} {w : Word}
    (h : (conditional c a b).eval skip = .ok w) :
    ∃ x y z, c.eval skip = .ok x ∧ a.eval (skip || !x.isTrue) = .ok y ∧
      b.eval (skip || x.isTrue) = .ok z ∧
      (if x.isTrue then y.convert z.unsigned else z.convert y.unsigned) = w := by
  rw [eval] at h
  obtain ⟨x, hx, h⟩ := Except.of_bind_ok h
  obtain ⟨y, hy, h⟩ := Except.of_bind_ok h
  obtain ⟨z, hz, h⟩ := Except.of_bind_ok h
  exact ⟨x, y, z, hx, hy, hz, Except.ok.inj h⟩

/-- Both branches have the common type, whichever is taken. -/
private theorem unsigned_branch (c : Bool) (y z : Word) :
    (if c then y.convert z.unsigned else z.convert y.unsigned).unsigned =
      (y.unsigned || z.unsigned) := by
  cases c with
  | true => rfl
  | false => exact Bool.or_comm _ _

/-- What an expression is worth has its type, but for operations without a result. -/
theorem rated_of_eval {e : Expr} {skip : Bool} {w : Word} (h : e.eval skip = .ok w) :
    Rated e skip w := by
  fun_induction eval e skip generalizing w with
  | case1 v skip =>
    obtain rfl := Except.ok.inj h
    exact ⟨rfl, rfl, id⟩
  | case2 value skip =>
    obtain rfl := Except.ok.inj h
    exact ⟨rfl, rfl, id⟩
  | case3 callee args skip =>
    obtain rfl := Except.ok.inj h
    exact ⟨rfl, rfl, id⟩
  -- A negation of truth is signed, and the other operators keep the type.
  | case4 op e skip ih =>
    obtain ⟨x, hx, rfl⟩ := of_eval_unary h
    obtain ⟨hworth, htype, hunsigned⟩ := ih hx
    refine ⟨?_, ?_, ?_⟩
    · simp only [voided, eval, hworth, bind, Except.bind, pure, Except.pure]
    · rw [Word.unsigned_unary, htype, voided, unsigned]
    · rw [Word.unsigned_unary]
      cases op with
      | not => exact id
      | _ => exact hunsigned
  | case5 op a b skip iha ihb =>
    obtain ⟨x, y, hx, hy, hw⟩ := of_eval_binary h
    obtain ⟨hworth, htype, hunsigned⟩ := iha hx
    obtain ⟨hworth', htype', hunsigned'⟩ := ihb x hy
    cases hresult : op.hasResult x y with
    | true =>
      have hvoided : (binary op a b).voided skip =
          binary op (a.voided skip) (b.voided (op.skips skip x)) := by
        simp only [voided, worth_of_eval hx, worth_of_eval hy, hresult, if_true]
      have htypes := LeftOp.unsigned_of_combine (LeftOp.combine_of_hasResult hw hresult)
      refine ⟨?_, ?_, ?_⟩
      · simp only [hvoided, eval, hworth, hworth', hw, bind, Except.bind]
      · rw [hvoided, htypes, htype, htype', unsigned]
      · rw [htypes]
        exact op.unsigned_mono hunsigned hunsigned'
    | false =>
      -- The type of the operands is lost with the operation.
      obtain rfl := LeftOp.combine_of_not_hasResult hw hresult
      have hvoided : (binary op a b).voided skip = constant (.ofInt 0) := by
        simp only [voided, worth_of_eval hx, worth_of_eval hy, hresult, Bool.false_eq_true,
          if_false]
      refine ⟨?_, ?_, ?_⟩
      · rw [hvoided, eval]
      · rw [hvoided, unsigned]
      · intro hunsigned
        cases hunsigned
  | case6 c a b skip ihc iha ihb =>
    -- Both branches count for the type, also the one that is not taken.
    obtain ⟨x, y, z, hx, hy, hz, rfl⟩ := of_eval_conditional h
    obtain ⟨hworth, -, -⟩ := ihc hx
    obtain ⟨hworth', htype', hunsigned'⟩ := iha x hy
    obtain ⟨hworth'', htype'', hunsigned''⟩ := ihb x hz
    refine ⟨?_, ?_, ?_⟩
    · simp only [voided, worth_of_eval hx, eval, hworth, hworth', hworth'', bind, Except.bind, pure,
        Except.pure]
    · rw [unsigned_branch, htype', htype'', voided, worth_of_eval hx, unsigned]
    · rw [unsigned_branch, unsigned, Bool.or_eq_true, Bool.or_eq_true]
      exact Or.imp hunsigned' hunsigned''

end Expr

namespace Expression

/-- The type of what is read. A constant is unsigned by its suffix, or because it is beyond the
signed range, and a character is signed. What an evaluation gives has the type of the expression
that has been read, but for operations without a result that are not evaluated; if there are none,
it is unsigned exactly if the expression is, whichever operands are evaluated. -/
theorem signedness_of_eval {limit p : Nat} {skip : Bool} {ts rest : List Token} {w : Word}
    (h : eval limit skip p ts = .value w rest) :
    (∀ spelling v, Constant.integer spelling = .ok v → (v.unsigned = true ↔
      Constant.hasUnsignedSuffix spelling = true ∨ Word.signedBound ≤ v.toInt)) ∧
    (∀ spelling v, Constant.character spelling = .ok v → v.unsigned = false) ∧
    (∃ e pre, ts = pre ++ rest ∧ Spells p e pre ∧ e.Rated skip w) ∧
    ∀ e pre, ts = pre ++ rest → Spells p e pre → Ends p rest →
      e.Rated skip w ∧ (e.voided skip = e → w.unsigned = e.unsigned) := by
  refine ⟨fun _ _ => Constant.unsigned_of_integer, fun _ _ => Constant.unsigned_of_character,
    ?_, ?_⟩
  · -- What is read is an expression.
    obtain ⟨⟨e, pre, hts, hspells, heval⟩, -⟩ := (sound_eval limit).reads h
    exact ⟨e, pre, hts, hspells, e.rated_of_eval heval⟩
  · intro e pre hts hspells hends
    have hagrees := (complete_eval limit).agrees hspells skip hends
    rw [← hts, h] at hagrees
    -- The evaluation has a value, so it is that of the tree.
    have heval : e.eval skip = .ok w := by
      generalize e.eval skip = x at hagrees
      cases hagrees
      rfl
    have hrated := e.rated_of_eval heval
    refine ⟨hrated, fun hvoided => ?_⟩
    rw [hrated.type, hvoided]

namespace Unselected

open Token

/-- The tokens of `1 ? -1 : 1u / divisor`. -/
def tokens (divisor : String) : List Token :=
  [sample .number "1"] ++ sign "?" :: ([sign "-", sample .number "1"] ++
    sign ":" :: ([sample .number "1u"] ++
      sign "/" :: [sample .number divisor]))

/-- The expression that these tokens spell. -/
def tree (divisor : Word) : Expr :=
  .conditional (.constant (.ofInt 1)) (.unary .negate (.constant (.ofInt 1)))
    (.binary (.arithmetic .divide) (.constant (.ofInt 1 true)) (.constant divisor))

/-- The tokens spell this expression, for any divisor that is a constant. -/
theorem spells {divisor : String} {d : Word} (h : Constant.integer divisor = .ok d) :
    Spells 0 (tree d) (tokens divisor) := by
  have hone : ∀ p, Spells p (.constant (.ofInt 1)) [sample .number "1"] := fun p => .integer rfl rfl
  have hunsigned : Spells 11 (.constant (.ofInt 1 true)) [sample .number "1u"] := .integer rfl rfl
  have hdivisor : Spells 12 (.constant d) [sample .number divisor] := .integer rfl h
  have hminus := @Spells.unary 0 (sign "-") .negate _ _ rfl (hone 12)
  have hdivision := @Spells.binary 1 (sign "/") (.arithmetic .divide) _ _ _ _
    (by decide) rfl hunsigned hdivisor
  exact @Spells.conditional 0 (sign "?") (sign ":") _ _ _ _ _ _
    (by decide) rfl rfl (hone 2) hminus hdivision

end Unselected

open Unselected in
/-- The branch that is not taken makes minus one unsigned. -/
theorem signedness_of_eval_unselected :
    eval 9 false 0 (tokens "2") = .value (.ofInt (-1) true) [] ∧
    (tree (.ofInt 2)).voided false = tree (.ofInt 2) ∧
    (Word.ofInt (-1) true).unsigned = (tree (.ofInt 2)).unsigned := by
  have hvalue : eval 9 false 0 (tokens "2") = .value (.ofInt (-1) true) [] := rfl
  have hvoided : (tree (.ofInt 2)).voided false = tree (.ofInt 2) := rfl
  obtain ⟨-, -, -, htyped⟩ := signedness_of_eval hvalue
  have htype := (htyped (tree (.ofInt 2)) (tokens "2") rfl (spells rfl) (.nil 0)).2 hvoided
  exact ⟨hvalue, hvoided, htype⟩

open Unselected in
/-- The division by zero in the branch that is not taken loses its type: the expression is unsigned,
and its value is signed. -/
theorem not_unsigned_of_unselected :
    Spells 0 (tree (.ofInt 0)) (tokens "0") ∧ (tree (.ofInt 0)).unsigned = true ∧
    ∃ w, eval 9 false 0 (tokens "0") = .value w [] ∧ w.unsigned = false :=
  ⟨spells rfl, rfl, .ofInt (-1), rfl, rfl⟩

end Expression

end Preproc
