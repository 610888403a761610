import Preproc.Expression

/-!
# The grammar of conditions

The expressions of conditions as trees, what a tree is worth, and which lists of tokens spell it.
`Spells p e ts` says that the tokens `ts` spell the tree `e` where only operators of level `p` or
higher may stand outside of parentheses.

The operators and their levels are those of C. They are stated here for each operator on its own;
that the table used in reading has the same ones is `infixOperator?_symbol` and
`infixOperator?_cases`.

## Key results

- `Expr.eval_skip`: what is not evaluated does not fail
- `Spells.mono`: what may stand at a level may stand at any lower one
- `Halts`, `nextLevel`: which operators can follow an expression without going on with it
-/

namespace Preproc

/-! ## Operators -/

/-- How an operator before its operand is spelled. -/
def UnaryOp.symbol : UnaryOp → String
  | .negate => "-"
  | .plus => "+"
  | .not => "!"
  | .complement => "~"

/-- The operators that associate to the left. -/
inductive LeftOp where
  | or
  | and
  | arithmetic (op : BinaryOp)
deriving DecidableEq, Repr

namespace LeftOp

/-- How the operator is spelled. -/
def symbol : LeftOp → String
  | or => "||"
  | and => "&&"
  | arithmetic .bitOr => "|"
  | arithmetic .bitXor => "^"
  | arithmetic .bitAnd => "&"
  | arithmetic .equal => "=="
  | arithmetic .notEqual => "!="
  | arithmetic .less => "<"
  | arithmetic .lessEqual => "<="
  | arithmetic .greater => ">"
  | arithmetic .greaterEqual => ">="
  | arithmetic .shiftLeft => "<<"
  | arithmetic .shiftRight => ">>"
  | arithmetic .add => "+"
  | arithmetic .subtract => "-"
  | arithmetic .multiply => "*"
  | arithmetic .divide => "/"
  | arithmetic .remainder => "%"

/-- How tight the operator binds; `?:` has level 1, and an operator before its operand level 12. -/
def level : LeftOp → Nat
  | or => 2
  | and => 3
  | arithmetic .bitOr => 4
  | arithmetic .bitXor => 5
  | arithmetic .bitAnd => 6
  | arithmetic .equal | arithmetic .notEqual => 7
  | arithmetic .less | arithmetic .lessEqual | arithmetic .greater | arithmetic .greaterEqual => 8
  | arithmetic .shiftLeft | arithmetic .shiftRight => 9
  | arithmetic .add | arithmetic .subtract => 10
  | arithmetic .multiply | arithmetic .divide | arithmetic .remainder => 11

/-- The operator among all that stand between two operands. -/
def toInfix : LeftOp → Infix
  | or => .logicalOr
  | and => .logicalAnd
  | arithmetic op => .arithmetic op

/-- Whether the right operand is not evaluated, when the left one is worth `a`. -/
def skips (op : LeftOp) (skip : Bool) (a : Word) : Bool :=
  match op with
  | or => skip || a.isTrue
  | and => skip || !a.isTrue
  | arithmetic _ => skip

/-- What the operator makes of two words. -/
def combine (op : LeftOp) (skip : Bool) (a b : Word) : Except ArithmeticError Word :=
  match op with
  | or => .ok (.ofBool (a.isTrue || b.isTrue))
  | and => .ok (.ofBool (a.isTrue && b.isTrue))
  | arithmetic op => Expression.apply skip op a b

/-- All operators that associate to the left. -/
def all : List LeftOp :=
  [or, and] ++ [.bitOr, .bitXor, .bitAnd, .equal, .notEqual, .less, .lessEqual, .greater,
    .greaterEqual, .shiftLeft, .shiftRight, .add, .subtract, .multiply, .divide, .remainder].map
      arithmetic

/-- All of these operators bind tighter than `?:`. -/
theorem two_le_level (op : LeftOp) : 2 ≤ op.level := by
  cases op with
  | or => decide
  | and => decide
  | arithmetic op => cases op <;> decide

/-- None of them binds as tight as an operator before its operand. -/
private theorem level_lt (op : LeftOp) : op.level < prefixPrecedence := by
  cases op with
  | or => decide
  | and => decide
  | arithmetic op => cases op <;> decide

private theorem skips_of_skip (op : LeftOp) (a : Word) : op.skips true a = true := by
  cases op <;> rfl

/-- Where nothing is evaluated, every operation has a result. -/
private theorem combine_of_skip (op : LeftOp) (a b : Word) : ∃ w, op.combine true a b = .ok w := by
  cases op with
  | or => exact ⟨_, rfl⟩
  | and => exact ⟨_, rfl⟩
  | arithmetic op =>
    unfold combine Expression.apply
    simp only
    split
    · exact ⟨_, rfl⟩
    · exact ⟨_, rfl⟩

end LeftOp

/-- A punctuator is told by its kind and its text. -/
theorem Token.isPunctuator_iff {t : Token} {value : String} :
    t.isPunctuator value = true ↔ t.kind = .punctuator ∧ t.value = value := by
  simp only [isPunctuator, Bool.and_eq_true, decide_eq_true_eq]

/-- A sign that is an operator before its operand is found in the table. -/
theorem prefixOperator?_symbol {t : Token} {op : UnaryOp} (h : t.isPunctuator op.symbol = true) :
    prefixOperator? t = some op := by
  obtain ⟨hkind, hvalue⟩ := Token.isPunctuator_iff.1 h
  rw [prefixOperator?, if_pos hkind, hvalue]
  cases op <;> rfl

/-- The table holds no other operators before their operand. -/
theorem prefixOperator?_cases {t : Token} {op : UnaryOp} (h : prefixOperator? t = some op) :
    t.isPunctuator op.symbol = true := by
  unfold prefixOperator? at h
  split at h
  · rename_i hkind
    obtain ⟨_, _, htable, -⟩ := List.lookup_eq_some_iff.1 h
    have hmem : (t.value, op) ∈ prefixOperators := by simp [htable]
    have hall : ∀ r ∈ prefixOperators, r.1 = r.2.symbol := by decide
    exact Token.isPunctuator_iff.2 ⟨hkind, hall _ hmem⟩
  · simp at h

/-- The question mark is in the table, with the lowest level. -/
theorem infixOperator?_question {t : Token} (h : t.isPunctuator "?" = true) :
    infixOperator? t = some (.conditional, 1) := by
  obtain ⟨hkind, hvalue⟩ := Token.isPunctuator_iff.1 h
  rw [infixOperator?, if_pos hkind, hvalue]
  rfl

/-- The operators that associate to the left are in the table, with their levels. -/
theorem infixOperator?_symbol {t : Token} {op : LeftOp} (h : t.isPunctuator op.symbol = true) :
    infixOperator? t = some (op.toInfix, op.level) := by
  obtain ⟨hkind, hvalue⟩ := Token.isPunctuator_iff.1 h
  rw [infixOperator?, if_pos hkind, hvalue]
  cases op with
  | or => rfl
  | and => rfl
  | arithmetic op => cases op <;> rfl

/-- The table holds `?` and the operators that associate to the left, with their levels. -/
theorem infixOperator?_cases {t : Token} {op : Infix} {q : Nat}
    (h : infixOperator? t = some (op, q)) :
    (t.isPunctuator "?" = true ∧ op = .conditional ∧ q = 1) ∨
      ∃ l : LeftOp, t.isPunctuator l.symbol = true ∧ op = l.toInfix ∧ q = l.level := by
  unfold infixOperator? at h
  split at h
  · rename_i hkind
    obtain ⟨_, _, htable, -⟩ := List.lookup_eq_some_iff.1 h
    have hmem : (t.value, op, q) ∈ infixOperators := by simp [htable]
    -- The table is finite, so each of its rows can be looked at.
    have hall : ∀ r ∈ infixOperators, r = ("?", .conditional, 1) ∨
        ∃ l ∈ LeftOp.all, r = (l.symbol, l.toInfix, l.level) := by decide
    cases hall _ hmem with
    | inl heq =>
      simp only [Prod.mk.injEq] at heq
      exact .inl ⟨Token.isPunctuator_iff.2 ⟨hkind, heq.1⟩, heq.2⟩
    | inr hleft =>
      obtain ⟨l, -, heq⟩ := hleft
      simp only [Prod.mk.injEq] at heq
      exact .inr ⟨l, Token.isPunctuator_iff.2 ⟨hkind, heq.1⟩, heq.2⟩
  · simp at h

/-! ## Trees -/

/-- The expression of a condition. -/
inductive Expr where
  | constant (w : Word)
  | name (value : String)
  | call (callee : String) (args : List Expr)
  | unary (op : UnaryOp) (e : Expr)
  | binary (op : LeftOp) (a b : Expr)
  | conditional (c a b : Expr)

namespace Expr

/-- What an expression is worth. An operand that is not needed is not evaluated, and so are the
arguments of a call, which is worth zero; where `skip` holds nothing is, and an operation without a
result counts as zero. -/
def eval : Expr → (skip : Bool) → Except ArithmeticError Word
  | constant w, _ => .ok w
  | name value, _ => .ok (.ofBool (value = "true"))
  | call _ _, _ => .ok (.ofInt 0)
  | unary op e, skip => do
    let w ← e.eval skip
    pure (Word.unary op w)
  | binary op a b, skip => do
    let x ← a.eval skip
    let y ← b.eval (op.skips skip x)
    op.combine skip x y
  | conditional c a b, skip => do
    let x ← c.eval skip
    let y ← a.eval (skip || !x.isTrue)
    let z ← b.eval (skip || x.isTrue)
    pure (if x.isTrue then y.convert z.unsigned else z.convert y.unsigned)

/-- What is not evaluated does not fail. -/
theorem eval_skip (e : Expr) {skip : Bool} (hskip : skip = true) : ∃ w, e.eval skip = .ok w := by
  fun_induction eval e skip with
  | case1 => exact ⟨_, rfl⟩
  | case2 => exact ⟨_, rfl⟩
  | case3 => exact ⟨_, rfl⟩
  | case4 _ _ _ ih =>
    obtain ⟨w, hw⟩ := ih hskip
    rw [hw]
    exact ⟨_, rfl⟩
  -- Neither operand is evaluated, and the operation has a result then.
  | case5 op _ _ _ iha ihb =>
    obtain ⟨x, hx⟩ := iha hskip
    obtain ⟨y, hy⟩ := ihb x (hskip ▸ op.skips_of_skip x)
    simp only [hx, hy, bind, Except.bind]
    exact hskip ▸ op.combine_of_skip x y
  | case6 _ _ _ _ ihc iha ihb =>
    obtain ⟨x, hx⟩ := ihc hskip
    obtain ⟨y, hy⟩ := iha x (by simp [hskip])
    obtain ⟨z, hz⟩ := ihb x (by simp [hskip])
    simp only [hx, hy, hz, bind, Except.bind]
    exact ⟨_, rfl⟩

end Expr

/-! ## Spelling -/

/-- Each of the trees is spelled after a comma. -/
inductive Following (R : Expr → List Token → Prop) : List Expr → List Token → Prop
  | nil : Following R [] []
  | cons {c : Token} {e : Expr} {ts : List Token} {es : List Expr} {us : List Token}
      (comma : c.isPunctuator "," = true) (first : R e ts) (more : Following R es us) :
      Following R (e :: es) (c :: ts ++ us)

/-- The tokens spell the tree, with operators of level `p` or higher only outside of parentheses. -/
inductive Spells : (p : Nat) → Expr → List Token → Prop
  | integer {p : Nat} {t : Token} {w : Word} (kind : t.kind = .number)
      (value : Constant.integer t.value = .ok w) : Spells p (.constant w) [t]
  | character {p : Nat} {t : Token} {w : Word} (kind : t.kind = .character)
      (value : Constant.character t.value = .ok w) : Spells p (.constant w) [t]
  | name {p : Nat} {t : Token} (kind : t.isName = true) : Spells p (.name t.value) [t]
  | callNone {p : Nat} {t l r : Token} (kind : t.isName = true) (left : l.isPunctuator "(" = true)
      (right : r.isPunctuator ")" = true) : Spells p (.call t.value []) [t, l, r]
  | callMore {p : Nat} {t l r : Token} {e : Expr} {ts : List Token} {es : List Expr}
      {us : List Token} (kind : t.isName = true) (left : l.isPunctuator "(" = true)
      (right : r.isPunctuator ")" = true) (first : Spells 0 e ts)
      (more : Following (Spells 0) es us) :
      Spells p (.call t.value (e :: es)) (t :: l :: (ts ++ us ++ [r]))
  | group {p : Nat} {l r : Token} {e : Expr} {ts : List Token} (left : l.isPunctuator "(" = true)
      (right : r.isPunctuator ")" = true) (inside : Spells 0 e ts) : Spells p e (l :: (ts ++ [r]))
  | unary {p : Nat} {t : Token} {op : UnaryOp} {e : Expr} {ts : List Token}
      (sign : t.isPunctuator op.symbol = true) (operand : Spells 12 e ts) :
      Spells p (.unary op e) (t :: ts)
  | binary {p : Nat} {t : Token} {op : LeftOp} {a b : Expr} {ts us : List Token}
      (level : p ≤ op.level) (sign : t.isPunctuator op.symbol = true)
      (left : Spells op.level a ts) (right : Spells (op.level + 1) b us) :
      Spells p (.binary op a b) (ts ++ t :: us)
  | conditional {p : Nat} {q c : Token} {e a b : Expr} {ts us vs : List Token} (level : p ≤ 1)
      (question : q.isPunctuator "?" = true) (colon : c.isPunctuator ":" = true)
      (condition : Spells 2 e ts) (middle : Spells 0 a us) (last : Spells 1 b vs) :
      Spells p (.conditional e a b) (ts ++ q :: (us ++ c :: vs))

/-- What may stand at a level may stand at any lower one. -/
theorem Spells.mono {p q : Nat} {e : Expr} {ts : List Token} (h : Spells q e ts) (hpq : p ≤ q) :
    Spells p e ts := by
  cases h with
  | integer kind value => exact .integer kind value
  | character kind value => exact .character kind value
  | name kind => exact .name kind
  | callNone kind left right => exact .callNone kind left right
  | callMore kind left right first more => exact .callMore kind left right first more
  | group left right inside => exact .group left right inside
  | unary sign operand => exact .unary sign operand
  -- The level matters to these two only.
  | binary level sign left right => exact .binary (Nat.le_trans hpq level) sign left right
  | conditional level question colon condition middle last =>
    exact .conditional (Nat.le_trans hpq level) question colon condition middle last

/-! ## What may follow -/

/-- No operator of level `p` or higher comes next. -/
def Halts (p : Nat) (ts : List Token) : Prop :=
  ∀ t ∈ ts.head?, ∀ op q, infixOperator? t = some (op, q) → q < p

/-- The level from which on an operator after an expression of level `p` would belong to its last
operand: `?:` has its last operand at its own level, all others have it one level higher. -/
def nextLevel (p : Nat) : Nat :=
  if p < 2 then 1 else p + 1

/-- What does not go on with an expression does not go on with one of a higher level. -/
theorem Halts.mono {p q : Nat} {ts : List Token} (h : Halts p ts) (hpq : p ≤ q) : Halts q ts := by
  intro t ht op r hop
  exact Nat.lt_of_lt_of_le (h t ht op r hop) hpq

/-- The levels of all operators between two operands are below those before one. -/
theorem infixOperator?_level {t : Token} {op : Infix} {q : Nat}
    (h : infixOperator? t = some (op, q)) : 1 ≤ q ∧ q < prefixPrecedence := by
  cases infixOperator?_cases h with
  | inl hquestion => simp [hquestion.2.2, prefixPrecedence]
  | inr hleft =>
    obtain ⟨l, -, -, rfl⟩ := hleft
    exact ⟨Nat.le_of_succ_le l.two_le_level, l.level_lt⟩

/-- No operator goes on with an operand that has an operator before it. -/
theorem halts_prefixPrecedence (ts : List Token) : Halts prefixPrecedence ts := by
  intro t _ op q hop
  exact (infixOperator?_level hop).2

/-- What belongs to the last operand belongs to the expression. -/
theorem le_nextLevel (p : Nat) : p ≤ nextLevel p := by
  unfold nextLevel
  split <;> omega

end Preproc
