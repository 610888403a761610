import Preproc.Proofs.Macro.NormalForm
import Preproc.Proofs.Samples

/-!
# Chains of pasting operators

Where every pasting operator stands between two operands, a replacement list is a row of chains: an
item, and further items with one operator before each. A chain of one item stands for the tokens of
that item; the operands of a longer chain are joined from left to right, the last token so far to
the first token of the next operand. An operand without tokens adds nothing and takes nothing away.

Substitution goes through the list with what it has made so far, newest first, and writes a
placemarker for an operand without tokens. Within a chain, what it has made ends with the operands
joined so far (`operands`), so the next operator finds their last token, or a placemarker if they
have none.

## Key results

- `Spaced.of_append`, `Spaced.after_paste`: what follows an item is again a row of chains, or an
  operator and the rest of the chain
- `Signature.substitute_item`, `Signature.substitute_link`: what one item does, and one operator
  with its item
- `Signature.substitute_chains`: what a row of chains does, from its start and after an operator
- `Macro.replacement_chains`: a replacement is what its chains stand for, one after the other
-/

namespace Preproc

/-! ## Items and chains -/

/-- What can stand on either side of a pasting operator: the stringizing operator with parameter
`i`, parameter `i`, or any other token. -/
inductive Item where
  | string (hash : Token) (i : Nat)
  | param (t : Token) (i : Nat)
  | plain (t : Token)
deriving DecidableEq, Repr

/-- An item, and those that follow it after one pasting operator each. -/
structure Chain where
  first : Item
  more : List Item := []
deriving DecidableEq, Repr

/-- Argument `i`, which is empty if it was left out. -/
def argumentAt (args : List Argument) (i : Nat) : Argument :=
  args.getD i ⟨[], []⟩

namespace Item

/-- How many tokens the item has beside the first. -/
def extra : Item → Nat
  | string .. => 1
  | param .. | plain _ => 0

/-- The tokens of the item as an operand: arguments are taken as written. -/
def operand (args : List Argument) : Item → List Token
  | string hash i => [stringize (argumentAt args i).raw hash]
  | param t i => withWhiteOf t (argumentAt args i).raw
  | plain t => [t]

/-- The tokens of the item by itself: a parameter stands for the expanded argument. -/
def alone (args : List Argument) : Item → List Token
  | string hash i => [stringize (argumentAt args i).raw hash]
  | param t i => withWhiteOf t (argumentAt args i).expanded
  | plain t => [t]

end Item

/-- Joins the last token of a list to the first of another. Nothing is joined to a list without
tokens. -/
def join (left right : List Token) : List Token :=
  match left.getLast?, right with
  | none, right => right
  | some _, [] => left
  | some l, r :: rs => left.dropLast ++ (paste l r).value ++ rs

/-- Joins the operands that follow to `left`, one after the other. -/
def joinAll (args : List Argument) (left : List Token) (items : List Item) : List Token :=
  items.foldl (fun left item => join left (item.operand args)) left

/-- The tokens that a chain stands for. -/
def Chain.tokens (args : List Argument) (c : Chain) : List Token :=
  if c.more = [] then c.first.alone args else joinAll args (c.first.operand args) c.more

/-- Puts an item and a pasting operator before the first chain. -/
def link (item : Item) : List Chain → List Chain
  | [] => [⟨item, []⟩]
  | c :: later => ⟨item, c.first :: c.more⟩ :: later

/-- What chains stand for when the first is joined to `left`. -/
def joinedTo (args : List Argument) (left : List Token) : List Chain → List Token
  | [] => left
  | c :: later => joinAll args left (c.first :: c.more) ++ later.flatMap (Chain.tokens args)

/-- What chains stand for once an item is put before them: the first is joined to the item. -/
private theorem flatMap_link {cs : List Chain} (h : cs ≠ []) (args : List Argument) (item : Item) :
    (link item cs).flatMap (Chain.tokens args) = joinedTo args (item.operand args) cs := by
  cases cs with
  | nil => exact absurd rfl h
  | cons c later => simp [link, Chain.tokens, joinedTo]

/-- Joining to an item before chains, and then to the chains. -/
private theorem joinedTo_link {cs : List Chain} (h : cs ≠ []) (args : List Argument)
    (left : List Token) (item : Item) :
    joinedTo args left (link item cs) = joinedTo args (join left (item.operand args)) cs := by
  cases cs with
  | nil => exact absurd rfl h
  | cons c later => rfl

namespace Signature

/-- The item that starts with the token `t`, before `next`. -/
def item (sig : Signature) (t : Token) (next : Option Token) : Item :=
  match t.isHash, next.bind sig.index? with
  | true, some i => .string t i
  | _, _ =>
    match sig.index? t with
    | some i => .param t i
    | none => .plain t

/-- Splits a replacement list into chains, from left to right. -/
def chains (sig : Signature) (body : List Token) : List Chain :=
  match body with
  | [] => []
  | t :: rest =>
    let item := sig.item t rest.head?
    let after := rest.drop item.extra
    if after.head?.any Token.isPaste then link item (sig.chains (after.drop 1))
    else ⟨item, []⟩ :: sig.chains after
termination_by body.length
decreasing_by all_goals (simp only [List.length_cons, List.length_drop]; omega)

end Signature

/-! ## Pasting operators apart -/

instance : DecidableRel Apart :=
  fun _ _ => instDecidableNot

namespace Spaced

variable {ts us : List Token} {p : Token}

/-- The end of a list is spaced if it does not start with an operator. -/
theorem of_append (h : Spaced (ts ++ us)) (hhead : us.head?.any Token.isPaste = false) :
    Spaced us := by
  refine ⟨hhead, ?_, (List.isChain_append.1 h.chain).2.1⟩
  cases us with
  | nil => rfl
  | cons u us =>
    have hlast := h.last
    rwa [List.getLast?_append_of_ne_nil _ (by simp)] at hlast

/-- An operator is followed by an operand. -/
theorem after_paste (h : Spaced (ts ++ p :: us)) (hp : p.isPaste = true) : us ≠ [] ∧ Spaced us := by
  -- An operator at the end has no operand.
  have hne : us ≠ [] := by
    rintro rfl
    have hlast := h.last
    simp [hp] at hlast
  refine ⟨hne, ?_⟩
  have hchain := (List.isChain_append.1 h.chain).2.1
  have happart : us.head?.any Token.isPaste = false := by
    cases us with
    | nil => rfl
    | cons u us =>
      have hboth := (List.isChain_cons_cons.1 hchain).1
      simpa [Apart, hp] using hboth
  rw [List.append_cons] at h
  exact h.of_append happart

end Spaced

/-! ## Joining -/

/-- Only an operand without tokens has a placemarker. -/
theorem operands_of_ne_nil {ts : List Token} (h : ts ≠ []) : operands ts = ts.map some := by
  cases ts with
  | nil => exact absurd rfl h
  | cons t ts => rfl

namespace Signature

variable {sig : Signature} {args : List Argument} {name : String} {t p : Token}
  {rest : List Token} {before older : List (Option Token)}

/-- Pasting to the newest of the operands joins to all of them. -/
private theorem pasteOperand_join {left right : List Token} {last : Option Token}
    {older : List (Option Token)} (h : (operands left).reverse = last :: older) :
    (pasteOperand last right).value.reverse ++ older = (operands (join left right)).reverse := by
  obtain rfl | ⟨init, l, rfl⟩ := List.eq_nil_or_concat left
  · -- A placemarker stands for what has no tokens.
    obtain ⟨rfl, rfl⟩ := List.cons.inj h
    simp [pasteOperand, join]
  · -- The last token is pasted to, and the others stay.
    rw [operands_of_ne_nil (by simp)] at h
    simp only [List.concat_eq_append, List.map_append, List.map_cons, List.map_nil,
      List.reverse_append, List.reverse_cons, List.reverse_nil, List.nil_append,
      List.singleton_append, List.cons.injEq] at h
    obtain ⟨rfl, rfl⟩ := h
    cases right with
    | nil => simp [pasteOperand, join, operands_of_ne_nil]
    | cons r rs =>
      have hne := paste_ne_nil l r
      simp [pasteOperand, join, operands_of_ne_nil, hne]

/-! ## One item -/

/-- Every parameter has an argument. -/
private theorem getElem?_of_index? (hargs : sig.params.length ≤ args.length) {i : Nat}
    (h : sig.index? t = some i) : args[i]? = some (argumentAt args i) := by
  have hlt := index?_lt h
  rw [argumentAt, List.getD_eq_getElem?_getD, List.getElem?_eq_getElem (by omega), Option.getD_some]

/-- All that an item can be. -/
private theorem item_cases (sig : Signature) (t : Token) (next : Option Token) :
    (sig.isStringize t next = true ∧ ∃ u i, next = some u ∧ sig.index? u = some i ∧
      sig.item t next = .string t i) ∨
    (sig.isStringize t next = false ∧ ∃ i, sig.index? t = some i ∧ sig.item t next = .param t i) ∨
    (sig.isStringize t next = false ∧ sig.index? t = none ∧ sig.item t next = .plain t) := by
  -- A parameter is a token with an index.
  have hany : next.any sig.isParam = (next.bind sig.index?).isSome := by cases next <;> rfl
  unfold isStringize item
  rw [hany]
  cases hhash : t.isHash with
  | false => cases hindex : sig.index? t <;> simp
  | true =>
    cases hnext : next.bind sig.index? with
    | none => cases hindex : sig.index? t <;> simp
    | some i =>
      obtain ⟨u, rfl, hu⟩ := Option.bind_eq_some_iff.1 hnext
      exact .inl ⟨rfl, u, i, rfl, hu, rfl⟩

/-- The operand that substitution finds is that of the item. -/
private theorem operand?_item (hargs : sig.params.length ≤ args.length) (t : Token)
    (next : Option Token) : sig.operand? args t next =
      some ((sig.item t next).operand args, (sig.item t next).extra) := by
  unfold operand?
  obtain ⟨hstring, u, i, rfl, hu, hitem⟩ | ⟨hstring, i, hi, hitem⟩ | ⟨hstring, hi, hitem⟩ :=
    sig.item_cases t next
  · simp [hstring, hu, hitem, getElem?_of_index? hargs hu, Item.operand, Item.extra]
  · simp [hstring, hi, hitem, getElem?_of_index? hargs hi, Item.operand, Item.extra]
  · simp [hstring, hi, hitem, Item.operand, Item.extra]

/-- An item at the start of a chain leaves its operand, with a placemarker if it has no tokens, if
an operator follows, and the tokens that it stands for by itself otherwise. -/
theorem substitute_item (hargs : sig.params.length ≤ args.length) (ht : t.isPaste = false) :
    sig.substitute name args before (t :: rest) =
      if (rest.drop (sig.item t rest.head?).extra).head?.any Token.isPaste then
        sig.substitute name args
          ((operands ((sig.item t rest.head?).operand args)).reverse ++ before)
          (rest.drop (sig.item t rest.head?).extra)
      else
        sig.substitute name args ((((sig.item t rest.head?).alone args).map some).reverse ++ before)
          (rest.drop (sig.item t rest.head?).extra) := by
  have hoperand := operand?_item hargs t rest.head?
  rw [substitute.eq_def]
  simp only [ht, Bool.false_eq_true, if_false]
  obtain ⟨hstring, u, i, hu, hi, hitem⟩ | ⟨hstring, i, hi, hitem⟩ | ⟨hstring, hi, hitem⟩ :=
    sig.item_cases t rest.head?
  · -- One token comes of the operator and its parameter, whatever follows.
    simp only [hstring, Bool.true_or, if_true, hoperand, hitem, Item.operand, Item.alone, operands,
      List.map_cons, List.map_nil, ite_self]
  · -- A parameter is taken as written before an operator, and expanded otherwise.
    have hget := getElem?_of_index? hargs hi
    have hparam : sig.isParam t = true := by rw [isParam, hi, Option.isSome_some]
    simp only [hstring, hparam, Bool.false_or, Bool.true_and, hoperand, hi, hget, hitem,
      Item.operand, Item.alone, Item.extra, List.drop_zero]
  · -- Any other token stands for itself.
    have hparam : sig.isParam t = false := by rw [isParam, hi, Option.isSome_none]
    simp only [hstring, hparam, Bool.false_or, Bool.false_and, Bool.false_eq_true, if_false, hi,
      hitem, Item.operand, Item.alone, Item.extra, List.drop_zero, operands, List.map_cons,
      List.map_nil, List.reverse_singleton, List.singleton_append, ite_self]

/-- An operator joins the item after it to the operands before it. -/
theorem substitute_link (hargs : sig.params.length ≤ args.length) (hp : p.isPaste = true)
    (left : List Token) :
    (sig.substitute name args ((operands left).reverse ++ older) (p :: t :: rest)).value =
      (sig.substitute name args
        ((operands (join left ((sig.item t rest.head?).operand args))).reverse ++ older)
        (rest.drop (sig.item t rest.head?).extra)).value := by
  cases hleft : (operands left).reverse with
  -- Operands leave at least a placemarker.
  | nil => exact absurd (List.reverse_eq_nil_iff.1 hleft) (operands_ne_nil left)
  | cons last newer =>
    rw [substitute.eq_def]
    simp only [hp, if_true, List.cons_append, operand?_item hargs, Noted.value_bind]
    rw [← List.append_assoc, pasteOperand_join hleft]

/-! ## All items -/

/-- A list with tokens has a chain. -/
theorem chains_ne_nil {body : List Token} (h : body ≠ []) : sig.chains body ≠ [] := by
  cases body with
  | nil => exact absurd rfl h
  | cons t rest =>
    rw [chains]
    split
    · cases sig.chains _ <;> simp [link]
    · simp

private theorem eq_append_drop (t : Token) (rest : List Token) (n : Nat) :
    t :: rest = (t :: rest.take n) ++ rest.drop n := by
  rw [List.cons_append, List.take_append_drop]

/-- Substitution in a row of chains adds what they stand for. After an operator, the first of them
is joined to the operands before it. -/
theorem substitute_chains (hargs : sig.params.length ≤ args.length) (name : String)
    {body : List Token} (hbody : Spaced body) :
    (∀ before, (sig.substitute name args before body).value.map (·.filterMap id) =
      some (before.reverse.filterMap id ++ (sig.chains body).flatMap (Chain.tokens args))) ∧
    (body ≠ [] → ∀ p left older, p.isPaste = true →
      (sig.substitute name args ((operands left).reverse ++ older) (p :: body)).value.map
        (·.filterMap id) =
      some (older.reverse.filterMap id ++ joinedTo args left (sig.chains body))) := by
  -- The two statements take turns: an item before an operator leaves its operand to the second, and
  -- the last item of a chain leaves what has been joined to the first.
  fun_induction chains sig body with
  | case1 =>
    refine ⟨fun before => ?_, fun hne => absurd rfl hne⟩
    rw [substitute.eq_def]
    simp
  -- An operator follows the item, and then an operand.
  | case2 t rest item after hpaste ih =>
    have ht : t.isPaste = false := by simpa using hbody.head
    obtain ⟨p, more, hafter⟩ : ∃ p more, after = p :: more := by
      cases hafter : after with
      | nil => simp [hafter] at hpaste
      | cons p more => exact ⟨p, more, rfl⟩
    have hp : p.isPaste = true := by simpa [hafter] using hpaste
    obtain ⟨hne, hmore⟩ : more ≠ [] ∧ Spaced more := by
      rw [eq_append_drop t rest item.extra,
        show rest.drop item.extra = p :: more from hafter] at hbody
      exact hbody.after_paste hp
    have hdrop : after.drop 1 = more := by rw [hafter, List.drop_one, List.tail_cons]
    rw [hdrop] at ih ⊢
    obtain ⟨-, hlinks⟩ := ih hmore
    refine ⟨fun before => ?_, fun _ q left older hq => ?_⟩
    · rw [substitute_item hargs ht, if_pos hpaste, flatMap_link (chains_ne_nil hne),
        show rest.drop (sig.item t rest.head?).extra = p :: more from hafter]
      exact hlinks hne p _ before hp
    · rw [substitute_link hargs hq, joinedTo_link (chains_ne_nil hne),
        show rest.drop (sig.item t rest.head?).extra = p :: more from hafter]
      exact hlinks hne p _ older hp
  -- The chain ends with the item.
  | case3 t rest item after hpaste ih =>
    have ht : t.isPaste = false := by simpa using hbody.head
    have hafter : Spaced after := by
      rw [eq_append_drop t rest item.extra] at hbody
      exact hbody.of_append (Bool.eq_false_iff.mpr hpaste)
    obtain ⟨hrow, -⟩ := ih hafter
    refine ⟨fun before => ?_, fun _ q left older hq => ?_⟩
    · rw [substitute_item hargs ht, if_neg hpaste, hrow]
      simp [Chain.tokens, item]
    · rw [substitute_link hargs hq, hrow, List.reverse_append, List.reverse_reverse,
        List.filterMap_append, filterMap_operands]
      simp [joinedTo, joinAll, item]

end Signature

/-- An argument that was left out is an empty one. -/
private theorem argumentAt_completeArguments (sig : Signature) (args : List Argument) :
    argumentAt (sig.completeArguments args) = argumentAt args := by
  funext i
  unfold Signature.completeArguments
  split
  · unfold argumentAt
    simp only [List.getD_eq_getElem?_getD, List.getElem?_append]
    split
    · rfl
    · -- An argument that is put in is empty, like one that is not there.
      rename_i hge
      rw [List.getElem?_eq_none (Nat.le_of_not_lt hge)]
      cases i - args.length <;> rfl
  · rfl

/-- An argument that was left out changes nothing in what a chain stands for. -/
private theorem Chain.tokens_completeArguments (sig : Signature) (args : List Argument) :
    Chain.tokens (sig.completeArguments args) = Chain.tokens args := by
  have hoperand : ∀ item, Item.operand (sig.completeArguments args) item = item.operand args := by
    intro item
    cases item <;> simp only [Item.operand, argumentAt_completeArguments]
  have halone : ∀ item, Item.alone (sig.completeArguments args) item = item.alone args := by
    intro item
    cases item <;> simp only [Item.alone, argumentAt_completeArguments]
  funext c
  simp only [tokens, joinAll, hoperand, halone]

namespace Macro

/-- The replacement of an invocation is what the chains of the replacement list stand for, one after
the other, with an empty variable argument for one that was left out. -/
theorem replacement_chains {name : String} {sig : Signature} {plain : List Bool} {body : List Token}
    {args : List Argument} (hbody : Spaced body)
    (hargs : (function name sig plain body).accepts args.length = true) (site : Token)
    (count : Nat) :
    ((function name sig plain body).replacement? args site count).value =
      some ((sig.chains body).flatMap (Chain.tokens args)) := by
  have hparams := Signature.params_le_completeArguments hargs
  obtain ⟨hrow, -⟩ := Signature.substitute_chains hparams name hbody
  rw [← Chain.tokens_completeArguments sig args]
  exact hrow []

namespace Chained

open Token

/-- The pasting operator. -/
def pasting : Token :=
  sign "##"

/-- The list `x##y##z x L## #y##x __VA_ARGS__ a##__VA_ARGS__##b`. -/
def mixed : List Token :=
  [word "x", pasting, word "y", pasting, word "z", word "x",
    word "L", pasting, sign "#", word "y", pasting, word "x",
    word "__VA_ARGS__", word "a", pasting, word "__VA_ARGS__", pasting, word "b"]

/-- Two tokens for `x` that become one when they are expanded, and none for `y`. -/
def given : List Argument :=
  [⟨[sample .number "1", sample .number "2"], [sample .number "3"]⟩, ⟨[], []⟩]

end Chained

open Token Chained in
/-- In `x##y##z` the tokens `2` and `z` meet across the empty `y`; in `L## #y##x` the literal and
`1` do not form a token; in `a##__VA_ARGS__##b` nothing was given for the operand in the middle. -/
theorem replacement_chains_placemarkers :
    let sig := Signature.ofSpellings ["x", "y", "..."]
    let m := function "f" sig [] mixed
    Spaced mixed ∧ m.accepts given.length = true ∧
    (sig.chains mixed).map (·.more.length) = [2, 0, 2, 0, 2] ∧
    (m.replacement? given (word "f") 0).value.map (·.map (·.value)) =
      some ["1", "2z", "3", "L\"\"", "1", "2", "ab"] := by
  intro sig m
  have hbody : Spaced mixed := ⟨by decide +kernel, by decide +kernel, by decide +kernel⟩
  have hargs : m.accepts given.length = true := by decide +kernel
  refine ⟨hbody, hargs, by decide +kernel, ?_⟩
  -- The chains are evaluated, not the substitution.
  rw [replacement_chains hbody hargs]
  decide +kernel

end Macro

end Preproc
