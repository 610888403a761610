import Preproc.Proofs.Expression.Grammar

/-!
# What is read is an expression

An evaluation that gives a word has read the tokens of an expression that is worth that word.
`Reads p skip ts w rest` says so of the tokens of `ts` before `rest`: its rules are those of the
grammar, with the tokens that follow.

A fault is accounted for too (`Explained`): only an expression with a character whose code is too
large faults for that, and only one with as many tokens as there may be levels is nested too deeply.

Each function that reads has one lemma that says both, and asks of the inner evaluation only that it
is `Sound`.

## Key results

- `sound_climb`: what the loop over the operators keeps
- `sound_eval`: what is read is an expression, no operator that it could take follows, and a fault
  is explained by the tokens
-/

namespace Preproc

namespace Expression

/-! ## Reading an expression -/

/-- The tokens of `ts` before `rest` spell an expression of level `p` that is worth `w`. -/
def Reads (p : Nat) (skip : Bool) (ts : List Token) (w : Word) (rest : List Token) : Prop :=
  ∃ e pre, ts = pre ++ rest ∧ Spells p e pre ∧ e.eval skip = .ok w

namespace Reads

variable {p : Nat} {skip : Bool} {ts rest : List Token} {w : Word}

/-- What is read at a level is read at any lower one. -/
theorem mono {q : Nat} (h : Reads q skip ts w rest) (hpq : p ≤ q) : Reads p skip ts w rest := by
  obtain ⟨e, pre, hts, hspells, heval⟩ := h
  exact ⟨e, pre, hts, hspells.mono hpq, heval⟩

/-- What remains is an end of the tokens. -/
theorem suffix (h : Reads p skip ts w rest) : rest <:+ ts := by
  obtain ⟨e, pre, rfl, -, -⟩ := h
  exact List.suffix_append pre rest

/-- An expression in parentheses is an expression. -/
theorem group {l r : Token} (hl : l.isPunctuator "(" = true) (hr : r.isPunctuator ")" = true)
    (h : Reads 0 skip ts w (r :: rest)) : Reads p skip (l :: ts) w rest := by
  obtain ⟨e, pre, rfl, hspells, heval⟩ := h
  exact ⟨e, l :: (pre ++ [r]), by simp, .group hl hr hspells, heval⟩

/-- An operator before an expression makes one. -/
theorem unary {t : Token} {op : UnaryOp} (ht : t.isPunctuator op.symbol = true)
    (h : Reads prefixPrecedence skip ts w rest) :
    Reads p skip (t :: ts) (Word.unary op w) rest := by
  obtain ⟨e, pre, rfl, hspells, heval⟩ := h
  exact ⟨.unary op e, t :: pre, rfl, .unary ht hspells,
    by simp only [Expr.eval, heval, bind, Except.bind, pure, Except.pure]⟩

/-- An operator between two expressions makes one. -/
theorem binary {t : Token} {op : LeftOp} {us : List Token} {a b : Word}
    (ht : t.isPunctuator op.symbol = true) (ha : Reads op.level skip ts a (t :: us))
    (hb : Reads (op.level + 1) (op.skips skip a) us b rest) (hw : op.combine skip a b = .ok w) :
    Reads op.level skip ts w rest := by
  obtain ⟨e, pre, rfl, hspells, heval⟩ := ha
  obtain ⟨e', pre', rfl, hspells', heval'⟩ := hb
  exact ⟨.binary op e e', pre ++ t :: pre', by simp, .binary (Nat.le_refl _) ht hspells hspells',
    by simp only [Expr.eval, heval, heval', hw, bind, Except.bind]⟩

/-- A question mark and a colon between three expressions make one. -/
theorem conditional {q c : Token} {us vs : List Token} {x y z : Word}
    (hq : q.isPunctuator "?" = true) (hc : c.isPunctuator ":" = true)
    (hx : Reads 2 skip ts x (q :: us)) (hy : Reads 0 (skip || !x.isTrue) us y (c :: vs))
    (hz : Reads 1 (skip || x.isTrue) vs z rest) :
    Reads 1 skip ts (if x.isTrue then y.convert z.unsigned else z.convert y.unsigned) rest := by
  -- The tokens of the three parts stand side by side.
  obtain ⟨e, pre, rfl, hspells, heval⟩ := hx
  obtain ⟨a, pre', rfl, hspells', heval'⟩ := hy
  obtain ⟨b, pre'', rfl, hspells'', heval''⟩ := hz
  exact ⟨.conditional e a b, pre ++ q :: (pre' ++ c :: pre''), by simp,
    .conditional (Nat.le_refl _) hq hc hspells hspells' hspells'',
    by simp only [Expr.eval, heval, heval', heval'', bind, Except.bind, pure, Except.pure]⟩

end Reads

/-! ## Faults -/

/-- What is known of the tokens `ts` when their evaluation, nested at most `room` deep, ends with
the fault. -/
def Explained (room : Nat) (ts : List Token) : EvalFault → Prop
  | .codeOverflow =>
    ∃ t ∈ ts, t.kind = .character ∧ Constant.character t.value = .error .codeOverflow
  | .tooDeep => room ≤ ts.length
  | _ => True

/-- A fault is explained by more tokens too. -/
theorem Explained.of_suffix {room : Nat} {ts us : List Token} {f : EvalFault}
    (h : Explained room ts f) (hs : ts <:+ us) : Explained room us f := by
  cases f with
  | codeOverflow =>
    obtain ⟨t, ht, hkind, hvalue⟩ := h
    exact ⟨t, hs.subset ht, hkind, hvalue⟩
  | tooDeep => exact Nat.le_trans h hs.length_le
  | _ => trivial

/-- One level deeper there is a token less to read. -/
theorem Explained.deeper {room : Nat} {ts us : List Token} {f : EvalFault} {t : Token}
    (h : Explained room ts f) (hs : ts <:+ us) : Explained (room + 1) (t :: us) f := by
  have hus := h.of_suffix hs
  cases f with
  | codeOverflow =>
    obtain ⟨u, hu, hkind, hvalue⟩ := hus
    exact ⟨u, List.mem_cons_of_mem t hu, hkind, hvalue⟩
  | tooDeep => exact Nat.succ_le_succ hus
  | _ => trivial

/-- `P` holds of the word and the tokens that remain, or `Q` of the fault. -/
def Meets (P : Word → List Token → Prop) (Q : EvalFault → Prop) : Evaluated → Prop
  | .value w rest => P w rest
  | .fault f _ => Q f

/-- What is known of a fault can be weakened. -/
theorem Meets.imp {P : Word → List Token → Prop} {Q Q' : EvalFault → Prop} {r : Evaluated}
    (h : Meets P Q r) (hQ : ∀ f, Q f → Q' f) : Meets P Q' r := by
  cases r with
  | value w rest => exact h
  | fault f rest => exact hQ f h

/-- What the inner evaluation gives is the worth of an expression that has been read, and no
operator that it could take comes next. Its faults are explained. -/
def Sound (room : Nat) (inner : Inner) : Prop :=
  ∀ (skip : Bool) (least : Nat) (ts : List Token),
    Meets (fun w rest => Reads least skip ts w rest ∧ Halts least rest) (Explained room ts)
      (inner skip least ts)

section

variable {room : Nat} {inner : Inner} {skip : Bool} {least : Nat} {ts rest : List Token}
variable {w : Word} {f : EvalFault}

/-- What a sound evaluation gives has been read. -/
theorem Sound.reads (hinner : Sound room inner) (h : inner skip least ts = .value w rest) :
    Reads least skip ts w rest ∧ Halts least rest := by
  have hmeets := hinner skip least ts
  rw [h] at hmeets
  exact hmeets

/-- What a sound evaluation ends with is explained. -/
theorem Sound.explained (hinner : Sound room inner) (h : inner skip least ts = .fault f rest) :
    Explained room ts f := by
  have hmeets := hinner skip least ts
  rw [h] at hmeets
  exact hmeets

end

/-! ## Operands -/

section

variable {room : Nat} {inner : Inner}

/-- `P` holds of what is left after a list of arguments, or `Q` of the fault. -/
def ListMeets {α : Type} (P : α → Prop) (Q : EvalFault → Prop) :
    Except (EvalFault × List Token) α → Prop
  | .ok rest => P rest
  | .error (f, _) => Q f

/-- What is known after a list of arguments can be weakened. -/
theorem ListMeets.imp {α : Type} {P P' : α → Prop} {Q Q' : EvalFault → Prop}
    {r : Except (EvalFault × List Token) α} (h : ListMeets P Q r) (hP : ∀ rest, P rest → P' rest)
    (hQ : ∀ f, Q f → Q' f) : ListMeets P' Q' r := by
  cases r with
  | ok rest => exact hP rest h
  | error e => exact hQ e.1 h

/-- Arguments that are read after commas are expressions. -/
private theorem sound_readMore (hinner : Sound room inner) (fuel : Nat) (ts : List Token) :
    ListMeets (fun rest => ∃ es us, ts = us ++ rest ∧ Following (Spells 0) es us)
      (Explained room ts) (readMore inner fuel ts) := by
  induction fuel generalizing ts with
  | zero => exact ⟨[], [], rfl, .nil⟩
  | succ fuel ih =>
    unfold readMore
    split
    · exact ⟨[], [], rfl, .nil⟩
    · rename_i t us
      split
      · rename_i hcomma
        split
        · rename_i w last hvalue
          have hreads := (hinner.reads hvalue).1
          refine (ih last).imp ?_ fun f hf =>
            hf.of_suffix (hreads.suffix.trans (List.suffix_cons t us))
          rintro rest ⟨es, vs, rfl, hfollowing⟩
          obtain ⟨e, pre, rfl, hspells, -⟩ := hreads
          exact ⟨e :: es, t :: pre ++ vs, by simp, .cons hcomma hspells hfollowing⟩
        · rename_i g last hfault
          split
          · -- After a fault of form the comma is left where it is, as if it had not been read.
            exact ⟨[], [], rfl, .nil⟩
          · exact (hinner.explained hfault).of_suffix (List.suffix_cons t us)
      · exact ⟨[], [], rfl, .nil⟩

/-- A list of arguments is empty, or an expression and others after commas. -/
private theorem sound_readList (hinner : Sound room inner) (ts : List Token) :
    ListMeets (fun rest => ts = rest ∨ ∃ e pre es us, ts = pre ++ us ++ rest ∧ Spells 0 e pre ∧
      Following (Spells 0) es us) (Explained room ts) (readList inner ts) := by
  unfold readList
  split
  · rename_i w last hvalue
    -- The first argument is read, and then those behind commas.
    have hreads := (hinner.reads hvalue).1
    have hmore := sound_readMore hinner last.length last
    refine hmore.imp ?_ fun f hf => hf.of_suffix hreads.suffix
    rintro rest ⟨es, us, rfl, hfollowing⟩
    obtain ⟨e, pre, rfl, hspells, -⟩ := hreads
    exact .inr ⟨e, pre, es, us, by simp, hspells, hfollowing⟩
  · -- Nothing could be read, so the list is empty, or the fault is passed on.
    rename_i g last hfault
    split
    · exact .inl rfl
    · exact hinner.explained hfault

/-- A call that is read is a name with a list of arguments, and worth zero. -/
private theorem sound_readCall (hinner : Sound room inner) {t : Token} (ht : t.isName = true)
    (p : Nat) (skip : Bool) (ts : List Token) :
    ListMeets (fun call => ∀ rest ∈ call, Reads p skip (t :: ts) (.ofInt 0) rest)
      (Explained room ts) (readCall inner ts) := by
  unfold readCall
  split
  · simp [ListMeets]
  · rename_i l us
    split
    · rename_i hl
      have hlist := sound_readList hinner us
      split
      · rename_i e herror
        rw [herror] at hlist
        exact Explained.of_suffix hlist (List.suffix_cons l us)
      · simp [ListMeets]
      · rename_i r last hok
        rw [hok] at hlist
        intro rest hrest
        rw [Option.mem_def, Option.ite_none_right_eq_some, Option.some.injEq] at hrest
        obtain ⟨hr, rfl⟩ := hrest
        -- The list is empty, or there is a first argument.
        cases hlist with
        | inl hnone =>
          subst hnone
          exact ⟨_, [t, l, r], rfl, .callNone ht hl hr, rfl⟩
        | inr hsome =>
          obtain ⟨e, pre, es, vs, rfl, hspells, hmore⟩ := hsome
          exact ⟨_, t :: l :: (pre ++ vs ++ [r]), by simp, .callMore ht hl hr hspells hmore, rfl⟩
    · simp [ListMeets]

/-- A name is a call if an argument list follows, and stands alone otherwise. -/
theorem term_of_isName (inner : Inner) {t : Token} (ht : t.isName = true) (us : List Token) :
    term inner (t :: us) =
      match readCall inner us with
      | .error (f, last) => .fault f last
      | .ok (some last) => .value (.ofInt 0) last
      | .ok none => .value (.ofBool (t.value = "true")) us := by
  -- Keywords are names like any other.
  have hkind : t.kind = .identifier ∨ t.kind = .keyword := by simpa [Token.isName] using ht
  unfold term
  cases hcall : readCall inner us with
  | error e => rcases hkind with h | h <;> simp only [h, hcall]
  | ok call =>
    cases call with
    | none => rcases hkind with h | h <;> simp only [h, hcall]
    | some last => rcases hkind with h | h <;> simp only [h, hcall]

/-- A name, a call or a constant is an expression. -/
private theorem sound_term (hinner : Sound room inner) (p : Nat) (skip : Bool) (ts : List Token) :
    Meets (Reads p skip ts) (Explained (room + 1) ts) (term inner ts) := by
  cases ts with
  | nil => trivial
  | cons t us =>
    by_cases ht : t.isName = true
    · have hcall := sound_readCall hinner ht p skip us
      rw [term_of_isName inner ht]
      split
      · rename_i g last herror
        rw [herror] at hcall
        exact Explained.deeper hcall (List.suffix_refl us)
      · rename_i last hsome
        rw [hsome] at hcall
        exact hcall last rfl
      · exact ⟨_, [t], rfl, .name ht, rfl⟩
    · -- What is no name is a constant, or a fault where it stands.
      unfold term
      simp only
      split
      · rename_i hkind
        split
        · rename_i v hv
          exact ⟨_, [t], rfl, .integer hkind hv, rfl⟩
        · trivial
      · rename_i hkind
        split
        · rename_i v hv
          exact ⟨_, [t], rfl, .character hkind hv, rfl⟩
        · rename_i hoverflow
          exact ⟨t, List.mem_cons_self, hkind, hoverflow⟩
        · trivial
      · rename_i hkind
        simp [Token.isName, hkind] at ht
      · rename_i hkind
        simp [Token.isName, hkind] at ht
      · trivial

/-- What is read between parentheses is an expression. -/
private theorem sound_parenthesized (hinner : Sound room inner) {t : Token}
    (ht : t.isPunctuator "(" = true) (p : Nat) (skip : Bool) (ts : List Token) :
    Meets (Reads p skip (t :: ts)) (Explained (room + 1) (t :: ts))
      (parenthesized inner skip t ts) := by
  unfold parenthesized
  split
  · rename_i v r last hvalue
    split
    · rename_i hr
      -- The parenthesis is closed behind an expression.
      exact (hinner.reads hvalue).1.group ht hr
    · trivial
  · trivial
  · rename_i g last hfault
    split
    · trivial
    · exact (hinner.explained hfault).deeper (List.suffix_refl ts)

/-- An operand is an expression of any level. -/
private theorem sound_operand (hinner : Sound room inner) (p : Nat) (skip : Bool)
    (ts : List Token) :
    Meets (Reads p skip ts) (Explained (room + 1) ts) (operand inner skip ts) := by
  cases ts with
  | nil => trivial
  | cons t us =>
    unfold operand
    simp only
    split
    · -- A sign and its operand, which is read with less room.
      rename_i op hop
      split
      · rename_i v last hvalue
        exact (hinner.reads hvalue).1.unary (prefixOperator?_cases hop)
      · rename_i g last hfault
        exact (hinner.explained hfault).deeper (List.suffix_refl us)
    · split
      · rename_i ht
        exact sound_parenthesized hinner ht p skip us
      · exact sound_term hinner p skip (t :: us)

/-! ## Operators -/

/-- An operator that associates to the left has its right operand one level higher. -/
theorem rightOperand_toInfix (inner : Inner) (skip : Bool) (op : LeftOp) (q : Nat) (left : Word)
    (ts : List Token) :
    rightOperand inner skip op.toInfix q left ts =
      match inner (op.skips skip left) (q + 1) ts with
      | .fault f rest => .fault f rest
      | .value w rest =>
        match op.combine skip left w with
        | .ok r => .value r rest
        | .error e => .fault (.arithmetic e) rest := by
  -- Only whether the right operand is skipped differs.
  cases op with
  | or =>
    simp only [LeftOp.toInfix, LeftOp.skips, rightOperand]
    cases inner (skip || left.isTrue) (q + 1) ts <;> rfl
  | and =>
    simp only [LeftOp.toInfix, LeftOp.skips, rightOperand]
    cases inner (skip || !left.isTrue) (q + 1) ts <;> rfl
  | arithmetic op =>
    simp only [LeftOp.toInfix, LeftOp.skips, rightOperand]
    cases inner skip (q + 1) ts <;> rfl

/-- After an operator of level `q` and its right operand: the expression from `ts` on has been read,
what follows does not belong to its last operand, and it is left of the tokens `us` that followed
the operator. -/
def Extends (q : Nat) (skip : Bool) (ts us : List Token) (w : Word) (rest : List Token) : Prop :=
  Reads q skip ts w rest ∧ Halts (nextLevel q) rest ∧ rest <:+ us

/-- A conditional is read with both of its branches. -/
private theorem sound_branches (hinner : Sound room inner) {t : Token} {skip : Bool}
    {ts us : List Token} {left : Word} (ht : t.isPunctuator "?" = true)
    (hleft : Reads 2 skip ts left (t :: us)) :
    Meets (Extends 1 skip ts us) (Explained room us) (branches inner skip left us) := by
  unfold branches
  split
  · rename_i g last hfault
    exact hinner.explained hfault
  · trivial
  · rename_i a c vs hmiddle
    have hmid := (hinner.reads hmiddle).1
    -- The last branch is read behind the colon, so faults in it are explained by what is left
    -- there.
    have htail := (List.suffix_cons c vs).trans hmid.suffix
    split
    · rename_i hc
      split
      · rename_i g last hfault
        exact (hinner.explained hfault).of_suffix htail
      · rename_i b last hlast
        obtain ⟨hreads, hhalts⟩ := hinner.reads hlast
        exact ⟨.conditional ht hc hleft hmid hreads, hhalts, hreads.suffix.trans htail⟩
    · trivial

/-- The operator `t` after an expression of level `k` takes it as its left operand, if it does not
belong to the last operand of that expression. -/
private theorem sound_rightOperand (hinner : Sound room inner) {k q : Nat} {t : Token} {op : Infix}
    {skip : Bool} {ts us : List Token} {left : Word} (hop : infixOperator? t = some (op, q))
    (hq : q < nextLevel k) (hleft : Reads k skip ts left (t :: us)) :
    Meets (Extends q skip ts us) (Explained room us) (rightOperand inner skip op q left us) := by
  -- No operator follows a conditional, so `k` is the level of something tighter.
  have hlevel : 2 ≤ k ∧ q ≤ k := by
    have hpos := (infixOperator?_level hop).1
    unfold nextLevel at hq
    split at hq
    · omega
    · omega
  cases infixOperator?_cases hop with
  | inl hquestion =>
    obtain ⟨ht, rfl, rfl⟩ := hquestion
    exact sound_branches hinner ht (hleft.mono hlevel.1)
  | inr hleftOp =>
    -- The right operand is one level higher, so an operator of the same level does not belong to
    -- it.
    obtain ⟨l, ht, rfl, rfl⟩ := hleftOp
    rw [rightOperand_toInfix]
    split
    · rename_i g last hfault
      exact hinner.explained hfault
    · rename_i b last hvalue
      obtain ⟨hreads, hhalts⟩ := hinner.reads hvalue
      split
      · rename_i r hr
        refine ⟨.binary ht (hleft.mono hlevel.2) hreads hr, ?_, hreads.suffix⟩
        have htwo := l.two_le_level
        rw [nextLevel, if_neg (by omega)]
        exact hhalts
      · trivial

/-- The loop keeps: an expression of some level `k`, no lower than `least`, has been read, and what
follows does not belong to its last operand. -/
theorem sound_climb (hinner : Sound room inner) {fuel k least : Nat} {skip : Bool}
    {ts us : List Token} {left : Word} (hfuel : us.length ≤ fuel) (hk : least ≤ k)
    (hleft : Reads k skip ts left us) (hhalts : Halts (nextLevel k) us) :
    Meets (fun w rest => Reads least skip ts w rest ∧ Halts least rest) (Explained (room + 1) us)
      (climb inner skip least fuel left us) := by
  induction fuel generalizing k left us with
  | zero =>
    -- Without fuel there is no token left, because every round reads one.
    have hnil : us = [] := List.length_eq_zero_iff.1 (Nat.le_zero.1 hfuel)
    exact ⟨hleft.mono hk, by simp [Halts, hnil]⟩
  | succ fuel ih =>
    unfold climb
    split
    · exact ⟨hleft.mono hk, by simp [Halts]⟩
    · rename_i t vs
      split
      · rename_i hop
        exact ⟨hleft.mono hk, by simp [Halts, hop]⟩
      · rename_i op q hop
        split
        · rename_i hlow
          exact ⟨hleft.mono hk, by simp [Halts, hop, hlow]⟩
        · rename_i hhigh
          -- The operator does not belong to the last operand, so it takes all that was read as its
          -- left one.
          have hq := hhalts t (by simp) op q hop
          have hright := sound_rightOperand hinner hop hq hleft
          split
          · rename_i v last hvalue
            rw [hvalue] at hright
            obtain ⟨hreads, hnext, hsuffix⟩ := hright
            have hlength := hsuffix.length_le
            have hrest := ih (by simp at hfuel; omega) (Nat.not_lt.1 hhigh) hreads hnext
            exact hrest.imp fun f hf => hf.of_suffix (hsuffix.trans (List.suffix_cons t vs))
          · rename_i g last hfault
            rw [hfault] at hright
            exact Explained.deeper hright (List.suffix_refl vs)

end

/-- What is read is an expression, no operator that it could take follows, and a fault is explained
by the tokens. -/
theorem sound_eval (nesting : Nat) : Sound nesting (eval nesting) := by
  induction nesting with
  | zero =>
    intro skip least ts
    -- No level is left, which any number of tokens explains.
    exact Nat.zero_le _
  | succ nesting ih =>
    intro skip least ts
    -- An operand has any level, also one above all operators.
    have hoperand := sound_operand ih (max least prefixPrecedence) skip ts
    unfold eval
    split
    · rename_i g last hfault
      rw [hfault] at hoperand
      exact hoperand
    · rename_i v us hvalue
      rw [hvalue] at hoperand
      have hreads : Reads (max least prefixPrecedence) skip ts v us := hoperand
      have hhalts := (halts_prefixPrecedence us).mono
        (Nat.le_trans (Nat.le_max_right least _) (le_nextLevel _))
      have hrest := sound_climb ih (Nat.le_refl _) (Nat.le_max_left least _) hreads hhalts
      exact hrest.imp fun f hf => hf.of_suffix hreads.suffix

end Expression

end Preproc
