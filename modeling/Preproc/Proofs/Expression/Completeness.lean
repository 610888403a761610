import Preproc.Proofs.Expression.Soundness

/-!
# Every expression is read

If the tokens of an expression are followed by nothing that could go on with it (`Ends`), they are
read to their end, and the evaluation ends as the tree says: with what the tree is worth, or with
its failure. The only other way it can end is that the expression is nested too deeply (`Agrees`).

An expression whose last operator has level `p` is read by the loop over the operators, which has
the left operand already. So what an evaluation makes of such an expression is what the loop makes
of the tokens after it (`complete_chain`), and the left operand is an expression of the same kind.

## Key results

- `complete_chain`: the evaluation of an expression goes on in the loop after it
- `complete_eval`: every expression is read, and evaluated as its tree
-/

namespace Preproc

/-- What can follow an expression of level `p`: no operator that it would take, and no parenthesis
that would make a call of a name at its end. -/
structure Ends (p : Nat) (ts : List Token) : Prop where
  halts : Halts p ts
  noCall : ∀ t ∈ ts.head?, t.isPunctuator "(" = false

namespace Ends

/-- At the end of the tokens every expression ends. -/
theorem nil (p : Nat) : Ends p [] := ⟨by simp [Halts], by simp⟩

/-- What ends an expression ends one of a higher level. -/
theorem mono {p q : Nat} {ts : List Token} (h : Ends p ts) (hpq : p ≤ q) : Ends q ts :=
  ⟨h.halts.mono hpq, h.noCall⟩

/-- Before a sign other than a parenthesis an expression ends, if the sign is no operator it would
take. -/
private theorem of_infixOperator? {p : Nat} {t : Token} {value : String}
    (ht : t.isPunctuator value = true)
    (hvalue : value ≠ "(") (hp : ∀ op q, infixOperator? t = some (op, q) → q < p)
    (ts : List Token) : Ends p (t :: ts) := by
  constructor
  · -- A token that is no operator of this level stops the loop,
    intro u hu
    simp only [List.head?_cons, Option.mem_def, Option.some.injEq] at hu
    exact hu ▸ hp
  · -- and one that is no parenthesis makes no call.
    intro u hu
    simp only [List.head?_cons, Option.mem_def, Option.some.injEq] at hu
    subst hu
    simp [Token.isPunctuator, (Token.isPunctuator_iff.1 ht).2, hvalue]

/-- After a sign that closes or separates, every expression ends. -/
private theorem of_separator {t : Token} {value : String} (ht : t.isPunctuator value = true)
    (hvalue : value ∈ [")", ",", ":"]) (p : Nat) (ts : List Token) : Ends p (t :: ts) := by
  obtain ⟨hkind, rfl⟩ := Token.isPunctuator_iff.1 ht
  have hnone : ∀ value ∈ [")", ",", ":"], value ≠ "(" ∧ infixOperators.lookup value = none := by
    decide
  obtain ⟨hopen, hlookup⟩ := hnone _ hvalue
  refine of_infixOperator? ht hopen ?_ ts
  intro op q hop
  rw [infixOperator?, if_pos hkind, hlookup] at hop
  simp at hop

/-- Before an operator that associates to the left, an expression of its own level ends. -/
private theorem of_leftOp {t : Token} {op : LeftOp} (ht : t.isPunctuator op.symbol = true)
    (ts : List Token) : Ends (nextLevel op.level) (t :: ts) := by
  -- No such operator is spelled as a parenthesis.
  have hopen : op.symbol ≠ "(" := by
    cases op with
    | or => decide
    | and => decide
    | arithmetic op => cases op <;> decide
  refine of_infixOperator? ht hopen ?_ ts
  intro op' q hop
  rw [infixOperator?_symbol ht, Option.some.injEq, Prod.mk.injEq] at hop
  have htwo := op.two_le_level
  rw [nextLevel, if_neg (by omega)]
  omega

/-- Before a question mark, anything but a conditional ends. -/
private theorem of_question {t : Token} (ht : t.isPunctuator "?" = true) (ts : List Token) :
    Ends (nextLevel 2) (t :: ts) := by
  refine of_infixOperator? ht (by decide) ?_ ts
  intro op q hop
  rw [infixOperator?_question ht, Option.some.injEq, Prod.mk.injEq] at hop
  rw [← hop.2]
  decide

end Ends

/-- Behind an argument stands a comma or the parenthesis that closes the list. -/
theorem Following.ends {R : Expr → List Token → Prop} {es : List Expr} {us : List Token}
    (h : Following R es us) {r : Token} (hr : r.isPunctuator ")" = true) (rest : List Token) :
    Ends 0 (us ++ r :: rest) := by
  cases h with
  | nil => exact .of_separator hr (by simp) 0 rest
  | cons comma first more => exact .of_separator comma (by simp) 0 _

namespace Expression

/-- The evaluation goes on with the word, if there is one, or ends with the failure; or it is nested
too deeply. -/
inductive Agrees (go : Word → Evaluated) : Except ArithmeticError Word → Evaluated → Prop
  | tooDeep (x : Except ArithmeticError Word) (rest : List Token) :
      Agrees go x (.fault .tooDeep rest)
  | value (w : Word) : Agrees go (.ok w) (go w)
  | fault (cause : ArithmeticError) (rest : List Token) :
      Agrees go (.error cause) (.fault (.arithmetic cause) rest)

/-- What follows an evaluation that agrees agrees, if it does so for every word. -/
theorem Agrees.bind {go go' : Word → Evaluated} {x : Except ArithmeticError Word} {r : Evaluated}
    {f : Word → Except ArithmeticError Word} (h : Agrees go x r)
    (hf : ∀ w, Agrees go' (f w) (go w)) : Agrees go' (x >>= f) r := by
  cases h with
  | tooDeep _ rest => exact .tooDeep _ rest
  | value w => exact hf w
  | fault cause rest => exact .fault cause rest

/-- Every expression is read by the inner evaluation, and what is none is a fault of form where it
starts with a closing parenthesis. -/
structure Complete (inner : Inner) : Prop where
  agrees : ∀ {p : Nat} {e : Expr} {ts : List Token}, Spells p e ts → ∀ (skip : Bool)
    {rest : List Token}, Ends p rest →
      Agrees (.value · rest) (e.eval skip) (inner skip p (ts ++ rest))
  closing : ∀ {r : Token}, r.isPunctuator ")" = true → ∀ (skip : Bool) (p : Nat)
    (rest : List Token), ∃ f last, inner skip p (r :: rest) = .fault f last ∧
      (f.isForm = true ∨ f = .tooDeep)

section

variable {inner : Inner}

/-! ## Operands -/

/-- All arguments that follow after commas are read. -/
private theorem complete_readMore (hinner : Complete inner) {es : List Expr} {us : List Token}
    (h : Following (Spells 0) es us) {r : Token} (hr : r.isPunctuator ")" = true)
    (rest : List Token) {fuel : Nat} (hfuel : us.length ≤ fuel) :
    readMore inner fuel (us ++ r :: rest) = .ok (r :: rest) ∨
      ∃ last, readMore inner fuel (us ++ r :: rest) = .error (.tooDeep, last) := by
  induction h generalizing fuel with
  | nil =>
    have hcomma : r.isPunctuator "," = false := by
      simp [Token.isPunctuator, (Token.isPunctuator_iff.1 hr).2]
    cases fuel with
    | zero => exact .inl rfl
    | succ fuel => simp [readMore, hcomma]
  | @cons c e ts es us comma first more ih =>
    cases fuel with
    | zero => simp at hfuel
    | succ fuel =>
      -- An argument is only read, so it has a word and the list goes on after it.
      have hfirst := hinner.agrees first true (more.ends hr rest)
      obtain ⟨w, hw⟩ := e.eval_skip rfl
      rw [hw] at hfirst
      simp only [List.cons_append, List.append_assoc, readMore, comma, if_true]
      generalize inner true 0 (ts ++ (us ++ r :: rest)) = result at hfirst ⊢
      cases hfirst with
      | tooDeep _ last => exact .inr ⟨last, by simp [EvalFault.isForm]⟩
      | value => exact ih (by simp at hfuel; omega)

/-- A list of arguments is read up to the parenthesis that closes it. -/
private theorem complete_readList (hinner : Complete inner) {e : Expr} {ts : List Token}
    {es : List Expr} {us : List Token} (first : Spells 0 e ts) (more : Following (Spells 0) es us)
    {r : Token}
    (hr : r.isPunctuator ")" = true) (rest : List Token) :
    readList inner (ts ++ us ++ r :: rest) = .ok (r :: rest) ∨
      ∃ last, readList inner (ts ++ us ++ r :: rest) = .error (.tooDeep, last) := by
  -- Arguments are read to be skipped, and skipping never fails.
  have hfirst := hinner.agrees first true (more.ends hr rest)
  obtain ⟨w, hw⟩ := e.eval_skip rfl
  rw [hw] at hfirst
  simp only [List.append_assoc, readList]
  generalize inner true 0 (ts ++ (us ++ r :: rest)) = result at hfirst ⊢
  cases hfirst with
  | tooDeep _ last => exact .inr ⟨last, by simp [EvalFault.isForm]⟩
  | value => exact complete_readMore hinner more hr rest (by simp)

/-- An empty list is left as it is. -/
private theorem readList_closing (hinner : Complete inner) {r : Token}
    (hr : r.isPunctuator ")" = true)
    (rest : List Token) :
    readList inner (r :: rest) = .ok (r :: rest) ∨
      ∃ last, readList inner (r :: rest) = .error (.tooDeep, last) := by
  obtain ⟨f, last, hfault, hf⟩ := hinner.closing hr true 0 rest
  rw [readList, hfault]
  cases hf with
  | inl hform => exact .inl (by simp [hform])
  | inr hdeep => exact .inr ⟨last, by simp [hdeep, EvalFault.isForm]⟩

private theorem operand_of_kind (inner : Inner) (skip : Bool) {t : Token}
    (ht : t.kind ≠ .punctuator) (ts : List Token) :
    operand inner skip (t :: ts) = term inner (t :: ts) := by
  simp [operand, prefixOperator?, Token.isPunctuator, ht]

/-- A name is no punctuator. -/
private theorem kind_ne_of_isName {t : Token} (ht : t.isName = true) : t.kind ≠ .punctuator := by
  intro hkind
  simp [Token.isName, hkind] at ht

/-- An integer is worth what its constant is. -/
private theorem operand_integer (inner : Inner) (skip : Bool) {t : Token} {w : Word}
    (kind : t.kind = .number) (value : Constant.integer t.value = .ok w) (rest : List Token) :
    operand inner skip (t :: rest) = .value w rest := by
  rw [operand_of_kind inner skip (by simp [kind]), term]
  simp only [kind, value]

/-- A character is worth what its constant is. -/
private theorem operand_character (inner : Inner) (skip : Bool) {t : Token} {w : Word}
    (kind : t.kind = .character) (value : Constant.character t.value = .ok w)
    (rest : List Token) : operand inner skip (t :: rest) = .value w rest := by
  rw [operand_of_kind inner skip (by simp [kind]), term]
  simp only [kind, value]

/-- A name without an argument list is a truth value. -/
private theorem operand_name (inner : Inner) (skip : Bool) {t : Token} (kind : t.isName = true)
    {p : Nat} {rest : List Token} (hrest : Ends p rest) :
    operand inner skip (t :: rest) = .value (.ofBool (t.value = "true")) rest := by
  have hcall : readCall inner rest = .ok none := by
    cases rest with
    | nil => rfl
    | cons u us =>
      have hu := hrest.noCall u rfl
      simp [readCall, hu]
  rw [operand_of_kind inner skip (kind_ne_of_isName kind), term_of_isName inner kind, hcall]

/-- A call is worth zero, once its arguments have been read. -/
private theorem complete_call (inner : Inner) (skip : Bool) {t l r : Token} (kind : t.isName = true)
    (left : l.isPunctuator "(" = true) (right : r.isPunctuator ")" = true)
    {args rest : List Token} (hargs : readList inner (args ++ r :: rest) = .ok (r :: rest) ∨
      ∃ last, readList inner (args ++ r :: rest) = .error (.tooDeep, last)) :
    Agrees (.value · rest) (.ok (.ofInt 0))
      (operand inner skip (t :: l :: (args ++ r :: rest))) := by
  rw [operand_of_kind inner skip (kind_ne_of_isName kind), term_of_isName inner kind]
  simp only [readCall, left, if_true]
  cases hargs with
  -- The parenthesis that closes the list is next.
  | inl hok =>
    simp only [hok, right, if_true]
    exact .value (.ofInt 0)
  | inr hdeep =>
    obtain ⟨last, hdeep⟩ := hdeep
    simp only [hdeep]
    exact .tooDeep _ last

/-- An expression in parentheses is worth what it is without them. -/
private theorem complete_group (hinner : Complete inner) (skip : Bool) {l r : Token} {e : Expr}
    {ts : List Token} (left : l.isPunctuator "(" = true) (right : r.isPunctuator ")" = true)
    (inside : Spells 0 e ts) (rest : List Token) :
    Agrees (.value · rest) (e.eval skip) (operand inner skip (l :: (ts ++ r :: rest))) := by
  -- A parenthesis is no sign.
  have hnone : prefixOperator? l = none := by
    obtain ⟨hkind, hvalue⟩ := Token.isPunctuator_iff.1 left
    rw [prefixOperator?, if_pos hkind, hvalue]
    rfl
  have hinside := hinner.agrees inside skip (.of_separator right (by simp) 0 rest)
  simp only [operand, hnone, left, if_true, parenthesized]
  generalize inner skip 0 (ts ++ r :: rest) = result at hinside ⊢
  generalize e.eval skip = x at hinside ⊢
  cases hinside with
  | tooDeep _ last => exact .tooDeep _ last
  | value w =>
    simp only [right, if_true]
    exact .value w
  | fault cause last => exact .fault cause last

/-- An operator before its operand is applied to what that is worth. -/
private theorem complete_unary (hinner : Complete inner) (skip : Bool) {t : Token} {op : UnaryOp}
    {e : Expr} {ts rest : List Token} (sign : t.isPunctuator op.symbol = true)
    (argument : Spells prefixPrecedence e ts) (hrest : Ends prefixPrecedence rest) :
    Agrees (.value · rest) ((Expr.unary op e).eval skip)
      (operand inner skip (t :: (ts ++ rest))) := by
  have hargument := hinner.agrees argument skip hrest
  simp only [operand, prefixOperator?_symbol sign, Expr.eval]
  -- The operand is read as tightly as a sign binds.
  generalize inner skip prefixPrecedence (ts ++ rest) = result at hargument ⊢
  generalize e.eval skip = x at hargument ⊢
  cases hargument with
  | tooDeep _ last => exact .tooDeep _ last
  | value w => exact .value (Word.unary op w)
  | fault cause last => exact .fault cause last

/-! ## Operators -/

/-- The loop ends where no operator that it takes comes next. -/
private theorem climb_of_halts (inner : Inner) (skip : Bool) {least : Nat} {ts : List Token}
    (h : Halts least ts) (fuel : Nat) (w : Word) :
    climb inner skip least fuel w ts = .value w ts := by
  cases fuel with
  | zero => rfl
  | succ fuel =>
    cases ts with
    | nil => rfl
    | cons t us =>
      -- The next token is no operator, or one that binds less tightly.
      cases hop : infixOperator? t with
      | none => simp [climb, hop]
      | some r =>
        have hlow := h t rfl r.1 r.2 hop
        simp [climb, hop, hlow]

/-- An operator that associates to the left combines its two operands. -/
private theorem complete_right (hinner : Complete inner) (skip : Bool) (op : LeftOp) {b : Expr}
    {us rest : List Token} (right : Spells (op.level + 1) b us) (hrest : Ends (op.level + 1) rest)
    (x : Word) : Agrees (.value · rest) (do let y ← b.eval (op.skips skip x); op.combine skip x y)
      (rightOperand inner skip op.toInfix op.level x (us ++ rest)) := by
  have hright := hinner.agrees right (op.skips skip x) hrest
  -- The right operand is read one level higher, skipped or not as the left one says.
  rw [rightOperand_toInfix]
  generalize inner (op.skips skip x) (op.level + 1) (us ++ rest) = result at hright ⊢
  generalize b.eval (op.skips skip x) = z at hright ⊢
  cases hright with
  | tooDeep _ last => exact .tooDeep _ last
  | value y =>
    simp only [bind, Except.bind]
    cases op.combine skip x y with
    | ok w => exact .value w
    | error cause => exact .fault cause rest
  | fault cause last => exact .fault cause last

/-- Both branches of a conditional are read, and one of them is evaluated. -/
private theorem complete_branches (hinner : Complete inner) (skip : Bool) {c : Token} {a b : Expr}
    {us vs rest : List Token} (colon : c.isPunctuator ":" = true) (middle : Spells 0 a us)
    (last : Spells 1 b vs) (hrest : Ends 1 rest) (x : Word) :
    Agrees (.value · rest)
      (do
        let y ← a.eval (skip || !x.isTrue)
        let z ← b.eval (skip || x.isTrue)
        pure (if x.isTrue then y.convert z.unsigned else z.convert y.unsigned))
      (branches inner skip x (us ++ c :: (vs ++ rest))) := by
  have hmiddle := hinner.agrees middle (skip || !x.isTrue)
    (.of_separator colon (by simp) 0 (vs ++ rest))
  have hlast := hinner.agrees last (skip || x.isTrue) hrest
  unfold branches
  -- The middle operand ends at the colon.
  generalize inner (skip || !x.isTrue) 0 (us ++ c :: (vs ++ rest)) = result at hmiddle ⊢
  generalize a.eval (skip || !x.isTrue) = y at hmiddle ⊢
  cases hmiddle with
  | tooDeep _ last => exact .tooDeep _ last
  | fault cause last => exact .fault cause last
  | value y =>
    simp only [colon, if_true]
    generalize inner (skip || x.isTrue) 1 (vs ++ rest) = result at hlast ⊢
    generalize b.eval (skip || x.isTrue) = z at hlast ⊢
    cases hlast with
    | tooDeep _ last => exact .tooDeep _ last
    | fault cause last => exact .fault cause last
    | value z => exact .value _

/-- An operator that is high enough takes its right operand, and the loop goes on after it. -/
private theorem agrees_climb {skip : Bool} {least q : Nat} {t : Token} {op : Infix}
    (hop : infixOperator? t = some (op, q)) (hq : least ≤ q) {x : Word} {us rest : List Token}
    {z : Except ArithmeticError Word}
    (h : Agrees (.value · rest) z (rightOperand inner skip op q x us)) (fuel : Nat) :
    Agrees (climb inner skip least fuel · rest) z
      (climb inner skip least (fuel + 1) x (t :: us)) := by
  rw [climb]
  simp only [hop, Nat.not_lt.2 hq, if_false]
  -- Whatever the right operand gives, the loop goes on with it or stops.
  generalize rightOperand inner skip op q x us = result at h ⊢
  cases h with
  | tooDeep _ last => exact .tooDeep _ last
  | value w => exact .value w
  | fault cause last => exact .fault cause last

end

/-- The operators that follow an operand are left to the loop. -/
private theorem agrees_eval {nesting : Nat} {skip : Bool} {ts rest : List Token}
    {x : Except ArithmeticError Word}
    (h : Agrees (.value · rest) x (operand (eval nesting) skip ts)) (least : Nat) :
    Agrees (climb (eval nesting) skip least rest.length · rest) x
      (eval (nesting + 1) skip least ts) := by
  rw [eval]
  generalize operand (eval nesting) skip ts = result at h ⊢
  cases h with
  | tooDeep _ last => exact .tooDeep _ last
  | value w => exact .value w
  | fault cause last => exact .fault cause last

/-- The evaluation of an expression of level `p`, and of what follows it, goes on in the loop with
what the expression is worth. The loop has enough fuel for the tokens that are left. -/
theorem complete_chain {nesting : Nat} (hinner : Complete (eval nesting)) (skip : Bool) {p : Nat}
    {e : Expr} {ts rest : List Token} {least : Nat} (h : Spells p e ts) (hleast : least ≤ p)
    (hrest : Ends (nextLevel p) rest) :
    ∃ fuel, rest.length ≤ fuel ∧ Agrees (climb (eval nesting) skip least fuel · rest) (e.eval skip)
      (eval (nesting + 1) skip least (ts ++ rest)) := by
  -- The left operand is a shorter expression that goes on in the same loop.
  induction hn : ts.length using Nat.strongRecOn generalizing p e ts rest with
  | ind n ih =>
    subst hn
    -- Where there is no left operand, the operand is read before the loop starts.
    have hprimary : ∀ {e : Expr} {ts : List Token},
        Agrees (.value · rest) (e.eval skip) (operand (eval nesting) skip (ts ++ rest)) →
        ∃ fuel, rest.length ≤ fuel ∧ Agrees (climb (eval nesting) skip least fuel · rest)
          (e.eval skip) (eval (nesting + 1) skip least (ts ++ rest)) :=
      fun hagrees => ⟨rest.length, Nat.le_refl _, agrees_eval hagrees least⟩
    cases h with
    | integer kind value =>
      apply hprimary
      rw [List.cons_append, operand_integer _ skip kind value]
      exact .value _
    | character kind value =>
      apply hprimary
      rw [List.cons_append, operand_character _ skip kind value]
      exact .value _
    | name kind =>
      apply hprimary
      rw [List.cons_append, List.nil_append, operand_name _ skip kind hrest]
      exact .value _
    | callNone kind left right =>
      have hargs := readList_closing hinner right rest
      exact hprimary (@complete_call _ skip _ _ _ kind left right [] rest hargs)
    | callMore kind left right first more =>
      apply hprimary
      have hargs := complete_readList hinner first more right rest
      have hcall := complete_call _ skip kind left right hargs
      simpa [Expr.eval] using hcall
    | group left right inside =>
      apply hprimary
      have hgroup := complete_group hinner skip left right inside rest
      simpa using hgroup
    | unary sign argument =>
      apply hprimary
      exact complete_unary hinner skip sign argument ⟨halts_prefixPrecedence rest, hrest.noCall⟩
    | @binary _ t op a b ts us level sign left right =>
      obtain ⟨fuel, hfuel, hleft⟩ := ih ts.length (by simp) left (Nat.le_trans hleast level)
        (.of_leftOp sign (us ++ rest)) rfl
      -- What cannot go on with the whole cannot go on with its right operand.
      have hnext : Ends (op.level + 1) rest := by
        refine hrest.mono ?_
        unfold nextLevel
        split <;> omega
      cases fuel with
      | zero => simp at hfuel
      | succ fuel =>
        refine ⟨fuel, by simp at hfuel; omega, ?_⟩
        rw [List.append_assoc]
        refine hleft.bind fun x => ?_
        exact agrees_climb (infixOperator?_symbol sign) (Nat.le_trans hleast level)
          (complete_right hinner skip op right hnext x) fuel
    | @conditional _ q c e a b ts us vs level question colon condition middle last =>
      -- The condition is the left operand of the question mark.
      obtain ⟨fuel, hfuel, hcondition⟩ := ih ts.length (by simp) condition (by omega)
        (.of_question question (us ++ c :: (vs ++ rest))) rfl
      have hnext : Ends 1 rest := by
        rw [nextLevel, if_pos (by omega)] at hrest
        exact hrest
      cases fuel with
      | zero => simp at hfuel
      | succ fuel =>
        refine ⟨fuel, by simp at hfuel; omega, ?_⟩
        have hbranches := complete_branches hinner skip colon middle last hnext
        simp only [List.append_assoc, List.cons_append]
        refine hcondition.bind fun x => ?_
        exact agrees_climb (infixOperator?_question question) (by omega) (hbranches x) fuel

/-- Every expression is read, and evaluated as its tree. -/
theorem complete_eval (nesting : Nat) : Complete (eval nesting) := by
  induction nesting with
  | zero =>
    constructor
    · intro p e ts _ skip rest _
      -- Without a level left nothing is read.
      exact .tooDeep _ _
    · intro r _ skip p rest
      exact ⟨_, _, rfl, .inr rfl⟩
  | succ nesting ih =>
    constructor
    · intro p e ts h skip rest hrest
      obtain ⟨fuel, -, hagrees⟩ := complete_chain ih skip h (Nat.le_refl p)
        (hrest.mono (le_nextLevel p))
      -- No operator that the loop takes comes next, so it ends at once.
      simp only [climb_of_halts _ skip hrest.halts] at hagrees
      exact hagrees
    · intro r hr skip p rest
      obtain ⟨hkind, hvalue⟩ := Token.isPunctuator_iff.1 hr
      have hstart : prefixOperator? r = none := by
        rw [prefixOperator?, if_pos hkind, hvalue]
        rfl
      have hopen : r.isPunctuator "(" = false := by simp [Token.isPunctuator, hvalue]
      refine ⟨.expectedOperand, r :: rest, ?_, .inl rfl⟩
      simp [eval, operand, hstart, hopen, term, hkind]

end Expression

end Preproc
