import Mathlib.Data.List.Chain
import Preproc.Proofs.Expansion.Sound
import Preproc.Proofs.Macro.Reads

/-!
# The normal form of a replacement list

Trimming leaves a replacement list in which every pasting operator stands between two operands.
Pasting its constants goes through the list from left to right; the tokens before the place reached,
and those after it, are at all times a list that came of the trimmed one by pasting. Where pasting
makes neither a parameter nor a pasting operator, operators still stand between operands, and no
parameter comes to stand by itself.

## Key results

- `spaced_trimmedBody`: trimming leaves pasting operators apart
- `occursPlainly_iff`: where a parameter occurs plainly
- `pasteConstants_spec`: what pasting constants keeps
-/

namespace Preproc

/-! ## Pasting operators apart -/

/-- Not both of the tokens are pasting operators. -/
def Apart (t u : Token) : Prop :=
  ¬(t.isPaste = true ∧ u.isPaste = true)

/-- The pasting operators of a list stand apart: none at its ends, and no two side by side. -/
structure Spaced (ts : List Token) : Prop where
  head : ts.head?.any Token.isPaste = false
  last : ts.getLast?.any Token.isPaste = false
  chain : ts.IsChain Apart

/-- Where there are no pasting operators, none stand side by side. -/
private theorem isChain_apart_of_forall {ts : List Token} (h : ∀ t ∈ ts, t.isPaste = false) :
    ts.IsChain Apart := by
  induction ts with
  | nil => exact .nil
  | cons t ts ih =>
    refine List.isChain_cons.2 ⟨fun u _ hboth => ?_, ih fun u hu => h u (List.mem_cons_of_mem t hu)⟩
    rw [h t List.mem_cons_self] at hboth
    cases hboth.1

/-- Where runs of pasting operators are made one, no two stand side by side, and a run that has
begun does not go on. -/
private theorem isChain_collapsePastes (inRun : Bool) (ts : List Token) :
    (collapsePastes inRun ts).IsChain Apart ∧
      (inRun = true → (collapsePastes inRun ts).head?.any Token.isPaste = false) := by
  fun_induction collapsePastes inRun ts with
  | case1 inRun => exact ⟨.nil, fun _ => rfl⟩
  | case2 inRun t ts hskip ih => exact ⟨ih.1, fun _ => ih.2 rfl⟩
  | case3 inRun t ts hkeep ih =>
    refine ⟨List.isChain_cons.2 ⟨fun u hu hboth => ?_, ih.1⟩, fun hrun => ?_⟩
    · -- Behind an operator a run has begun.
      have hhead := ih.2 hboth.1
      rw [Option.mem_def.1 hu] at hhead
      simp [hboth.2] at hhead
    · simpa [hrun] using hkeep

/-- What is left starts with no operator. -/
private theorem head?_dropWhile_isPaste (ts : List Token) :
    (ts.dropWhile Token.isPaste).head?.any Token.isPaste = false := by
  induction ts with
  | nil => rfl
  | cons t ts ih =>
    rw [List.dropWhile_cons]
    split
    · exact ih
    · rename_i ht
      simpa using ht

/-- Operators that stand apart are spaced once those at the ends are dropped. -/
private theorem spaced_trimPastes {ts : List Token} (h : ts.IsChain Apart) (name : String) :
    Spaced (trimPastes name ts).value := by
  -- What is left is the list without its leading operators, up to those at its end.
  have hcore : (trimPastes name ts).value ++
      ((ts.dropWhile Token.isPaste).reverse.takeWhile Token.isPaste).reverse =
        ts.dropWhile Token.isPaste := by
    rw [trimPastes, ← List.reverse_append, List.takeWhile_append_dropWhile, List.reverse_reverse]
  have hhead := head?_dropWhile_isPaste ts
  have hchain := h.suffix (List.dropWhile_suffix Token.isPaste)
  rw [← hcore] at hhead hchain
  refine ⟨?_, ?_, (List.isChain_append.1 hchain).1⟩
  · cases hvalue : (trimPastes name ts).value with
    | nil => rfl
    | cons t us => simpa [hvalue] using hhead
  · have hlast := head?_dropWhile_isPaste (ts.dropWhile Token.isPaste).reverse
    rw [trimPastes, List.getLast?_reverse]
    exact hlast

/-- White space is of no importance to operators. -/
private theorem spaced_dropLeadingWhite {ts : List Token} (h : Spaced ts) :
    Spaced (dropLeadingWhite ts) := by
  cases ts with
  | nil => exact h
  | cons t ts =>
    obtain ⟨hhead, hlast, hchain⟩ := h
    -- Only the mark of the first token changes, which is no operator.
    refine ⟨hhead, ?_, ?_⟩
    · cases ts with
      | nil => exact hlast
      | cons u us => exact hlast
    · rw [List.isChain_cons] at hchain
      exact List.isChain_cons.2 hchain

/-- In a trimmed replacement list every pasting operator stands between two operands. -/
theorem spaced_trimmedBody (name : String) (body : List Token) :
    Spaced (trimmedBody name body).value :=
  spaced_dropLeadingWhite (spaced_trimPastes (isChain_collapsePastes false body).1 name)

/-! ## Pasting two operands -/

section Pasting

variable {l r joined : List Token} {left p right : Token}

private theorem getLast?_append_operands (l r : List Token) (left p right : Token) :
    (l ++ left :: p :: right :: r).getLast? = r.getLast?.or (some right) := by
  simp [List.getLast?_append, List.getLast?_cons]

/-- The operands of a pasting operator are none themselves. -/
theorem Spaced.operands (h : Spaced (l ++ left :: p :: right :: r)) (hp : p.isPaste = true) :
    left.isPaste = false ∧ right.isPaste = false := by
  obtain ⟨-, hrest, -⟩ := List.isChain_append.1 h.chain
  obtain ⟨hleft, hrest⟩ := List.isChain_cons_cons.1 hrest
  obtain ⟨hright, -⟩ := List.isChain_cons_cons.1 hrest
  simpa [Apart, hp] using And.intro hleft hright

/-- Pasting operators stay apart if pasting makes none. -/
theorem Spaced.of_pasted (h : Spaced (l ++ left :: p :: right :: r)) (hne : joined ≠ [])
    (hjoined : ∀ t ∈ joined, t.isPaste = false) : Spaced (l ++ (joined ++ r)) := by
  obtain ⟨hl, hrest, -⟩ := List.isChain_append.1 h.chain
  have hr : r.IsChain Apart := hrest.tail.tail.tail
  -- The head, the last token and the chain: each is one of the list before or one that was joined.
  refine ⟨?_, ?_, ?_⟩
  · cases l with
    | nil =>
      cases joined with
      | nil => exact absurd rfl hne
      | cons t ts => simpa using hjoined t List.mem_cons_self
    | cons t ts => exact h.head
  · have hlast := h.last
    rw [getLast?_append_operands] at hlast
    rw [List.getLast?_append, List.getLast?_append]
    cases hend : r.getLast? with
    | some t =>
      rw [hend] at hlast
      exact hlast
    | none =>
      rw [Option.none_or, List.getLast?_eq_some_getLast hne]
      exact hjoined _ (List.getLast_mem hne)
  · refine List.isChain_append.2
      ⟨hl, List.isChain_append.2 ⟨isChain_apart_of_forall hjoined, hr, ?_⟩, ?_⟩
    · intro t ht u _ hboth
      rw [hjoined t (List.mem_of_mem_getLast? ht)] at hboth
      cases hboth.1
    · intro t _ u hu hboth
      rw [List.head?_append_of_ne_nil _ hne] at hu
      rw [hjoined u (List.mem_of_mem_head? hu)] at hboth
      cases hboth.2

namespace Signature

variable {sig : Signature} {i : Nat}

/-- The token `t`, between `prev` and `next`, is parameter `i` and no operand. -/
structure PlainAt (sig : Signature) (i : Nat) (prev : Option Token) (t : Token)
    (next : Option Token) : Prop where
  index : sig.index? t = some i
  notPasted : prev.any Token.isPaste = false
  notStringized : prev.any Token.isHash = false
  notPastedTo : next.any Token.isPaste = false

/-- A parameter occurs plainly at the first token or behind it. -/
theorem occursPlainly_cons {prev : Option Token} {t : Token} {rest : List Token} :
    sig.occursPlainly i prev (t :: rest) = true ↔
      sig.PlainAt i prev t rest.head? ∨ sig.occursPlainly i (some t) rest = true := by
  rw [occursPlainly, Bool.or_eq_true]
  refine or_congr ?_ Iff.rfl
  constructor
  · intro h
    simp only [Bool.and_eq_true, Bool.not_eq_true', decide_eq_true_eq] at h
    obtain ⟨⟨⟨hindex, hpaste⟩, hhash⟩, hnext⟩ := h
    exact ⟨hindex, hpaste, hhash, hnext⟩
  · rintro ⟨hindex, hpaste, hhash, hnext⟩
    simp [hindex, hpaste, hhash, hnext]

/-- A parameter occurs plainly if it stands somewhere in the list and is no operand there. -/
theorem occursPlainly_iff {prev : Option Token} {ts : List Token} :
    sig.occursPlainly i prev ts = true ↔
      ∃ l t r, ts = l ++ t :: r ∧ sig.PlainAt i (l.getLast?.or prev) t r.head? := by
  induction ts generalizing prev with
  | nil => simp [occursPlainly]
  | cons u us ih =>
    rw [occursPlainly_cons, ih]
    -- The token before the first is `u`, or the last of those behind it.
    have hlast : ∀ l : List Token, (u :: l).getLast?.or prev = l.getLast?.or (some u) := by
      intro l
      cases l <;> simp [List.getLast?_cons]
    constructor
    · rintro (hhere | ⟨l, t, r, rfl, hlater⟩)
      · exact ⟨[], u, us, rfl, hhere⟩
      · exact ⟨u :: l, t, r, rfl, by rwa [hlast]⟩
    · rintro ⟨l, t, r, heq, hplain⟩
      cases l with
      | nil =>
        obtain ⟨rfl, rfl⟩ := List.cons.inj heq
        exact .inl hplain
      | cons v l =>
        obtain ⟨rfl, rfl⟩ := List.cons.inj heq
        exact .inr ⟨l, t, r, rfl, by rwa [hlast] at hplain⟩

/-- No parameter comes to occur plainly if pasting makes none. -/
private theorem occursPlainly_of_pasted (hleft : left.isPaste = false)
    (hright : right.isPaste = false) (hstringize : sig.isStringize right r.head? = false)
    (hjoined : ∀ t ∈ joined, sig.isParam t = false)
    (h : sig.occursPlainly i none (l ++ (joined ++ r)) = true) :
    sig.occursPlainly i none (l ++ left :: p :: right :: r) = true := by
  obtain ⟨l', t, r', heq, hplain⟩ := occursPlainly_iff.1 h
  refine occursPlainly_iff.2 ?_
  obtain ⟨a, rfl, rfl⟩ | ⟨a, rfl, hmid⟩ := List.append_eq_append_cons heq
  · -- Before what is pasted; the next token is at worst `left`.
    refine ⟨l', t, a ++ left :: p :: right :: r, by simp, hplain.index, hplain.notPasted,
      hplain.notStringized, ?_⟩
    have hnext := hplain.notPastedTo
    cases a with
    | nil => simpa using hleft
    | cons u a => exact hnext
  · obtain ⟨b, rfl, rfl⟩ | ⟨b, rfl, rfl⟩ := List.append_eq_append_cons hmid
    · have hparam := hjoined t (by simp)
      simp [isParam, hplain.index] at hparam
    · -- After it; the token before is at worst `right`.
      refine ⟨l ++ left :: p :: right :: b, t, r', by simp, ?_⟩
      rw [List.getLast?_append, List.getLast?_append] at hplain
      rw [getLast?_append_operands]
      cases hlast : b.getLast? with
      | some u =>
        rw [hlast] at hplain
        exact hplain
      | none =>
        obtain rfl := List.getLast?_eq_none_iff.1 hlast
        refine ⟨hplain.index, hright, ?_, hplain.notPastedTo⟩
        simpa [isStringize, isParam, hplain.index] using hstringize

end Signature

end Pasting

/-! ## Pasting constants -/

/-- The operands that are pasted while constants are, each pair as it stands then. -/
def pastedPairs (sig : Option Signature) (before : List Token) (body : List Token) :
    List (Token × Token) :=
  match body with
  | [] => []
  | t :: rest =>
    if t.isPaste then
      match before, rest with
      | left :: older, right :: more =>
        if sig.any (·.isParam left) || sig.any (·.isParam right)
            || sig.any (·.isStringize right more.head?) then
          pastedPairs sig (t :: left :: older) (right :: more)
        else
          (left, right) :: pastedPairs sig ((paste left right).value.reverse ++ older) more
      | older, more => pastedPairs sig older more
    else if sig.any (·.isStringize t rest.head?) then
      pastedPairs sig ((rest.take 1).reverse ++ t :: before) (rest.drop 1)
    else pastedPairs sig (t :: before) rest
termination_by body.length
decreasing_by all_goals (simp only [List.length_cons, List.length_drop]; omega)

/-- The tokens that come of pasting constants. Where pasting fails, these are its operands. -/
def pastedConstants (sig : Option Signature) (before : List Token) (body : List Token) :
    List Token :=
  (pastedPairs sig before body).flatMap fun (left, right) => (paste left right).value

/-- The tokens that are made by pasting constants. -/
def madeConstants (sig : Option Signature) (before : List Token) (body : List Token) :
    List Token :=
  (pastedPairs sig before body).flatMap fun (left, right) => (pasted? left right).toList

/-- If pasting constants makes neither a parameter nor a pasting operator, pasting operators stay
apart, and what occurs plainly in the result did so before. -/
theorem Signature.pasteConstants_spec {sig : Signature} (before body : List Token)
    (h : Spaced (before.reverse ++ body))
    (hmade : ∀ t ∈ pastedConstants (some sig) before body,
      sig.isParam t = false ∧ t.isPaste = false) :
    Spaced (pasteConstants (some sig) before body).value ∧
      ∀ i, sig.occursPlainly i none (pasteConstants (some sig) before body).value = true →
        sig.occursPlainly i none (before.reverse ++ body) = true := by
  -- The list `before.reverse ++ body` changes only where two operands are pasted.
  fun_induction pasteConstants (some sig) before body with
  | case1 before =>
    rw [List.append_nil] at h ⊢
    exact ⟨h, fun _ hi => hi⟩
  | case2 t ht left older right more hlate ih =>
    rw [pastedConstants, pastedPairs.eq_def] at hmade
    simp only [if_pos ht, if_pos hlate] at hmade
    have hsame : (t :: left :: older).reverse ++ right :: more =
        (left :: older).reverse ++ t :: right :: more := by simp
    rw [← hsame] at h ⊢
    exact ih h hmade
  -- The two operands give way to what is pasted, and the induction goes on from there.
  | case3 t ht left older right more hnow ih =>
    rw [pastedConstants, pastedPairs.eq_def] at hmade
    simp only [if_pos ht, if_neg hnow, List.flatMap_cons, List.mem_append] at hmade
    simp only [Option.any_some, Bool.or_eq_true, not_or, Bool.not_eq_true] at hnow
    rw [List.reverse_cons, List.append_assoc, List.singleton_append] at h ⊢
    have hsame : ((paste left right).value.reverse ++ older).reverse ++ more =
        older.reverse ++ ((paste left right).value ++ more) := by simp
    have hspaced := h.of_pasted (paste_ne_nil left right) fun u hu => (hmade u (.inl hu)).2
    obtain ⟨hleft, hright⟩ := h.operands ht
    have hlater := ih (paste left right).value
    rw [hsame] at hlater
    obtain ⟨hresult, hplain⟩ := hlater hspaced fun u hu => hmade u (.inr hu)
    refine ⟨hresult, fun i hi => ?_⟩
    exact occursPlainly_of_pasted hleft hright hnow.2 (fun u hu => (hmade u (.inl hu)).1)
      (hplain i hi)
  | case4 t ht older more hends ih =>
    -- The operator would stand at an end.
    cases List.nil_or_nil_of_not_cons hends with
    | inl hnil =>
      have hhead := h.head
      simp [hnil, ht] at hhead
    | inr hnil =>
      have hlast := h.last
      simp [hnil, ht] at hlast
  -- Only the place reached moves on, here by two tokens and below by one.
  | case5 before t rest ht hstringize ih =>
    rw [pastedConstants, pastedPairs.eq_def] at hmade
    simp only [if_neg ht, if_pos hstringize] at hmade
    rw [← reverse_pass_pair t before rest] at h ⊢
    exact ih h hmade
  | case6 before t rest ht hstringize ih =>
    rw [pastedConstants, pastedPairs.eq_def] at hmade
    simp only [if_neg ht, if_neg hstringize] at hmade
    have hsame : (t :: before).reverse ++ rest = before.reverse ++ t :: rest := by simp
    rw [← hsame] at h ⊢
    exact ih h hmade

end Preproc
