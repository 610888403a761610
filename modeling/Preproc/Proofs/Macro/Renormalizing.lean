import Preproc.Proofs.Macro.PlainParams

/-!
# Normalizing again

A replacement list in normal form is not changed by normalizing it again. The pasting operators that
remain in it are those that have to wait for the arguments: an operand is a parameter, or is made of
one by the stringizing operator. As the constants are pasted from left to right, every operator left
behind waits, and goes on to wait when the operand after it is pasted to what follows: that operand
was no parameter then, so it was the one before the operator that it waited for.

This needs that pasting makes no pasting operator. One that it makes would be taken for an operator
the next time.

## Key results

- `Settled.pasteConstants`: pasting constants leaves a list alone in which every operator waits
- `settled_pasteConstants`: it gives such a list, if no token of `madeConstants` is an operator
- `Macro.body_ofDefinition_again`: normalizing a replacement list again leaves it unchanged
-/

namespace Preproc

/-- Whether the pasting operator behind `left` and before the tokens `after` has to wait for the
arguments. -/
def waitsAt (sig : Option Signature) (left : Token) (after : List Token) : Bool :=
  sig.any (·.isParam left) || after.head?.any fun right =>
    sig.any (·.isParam right) || sig.any (·.isStringize right after.tail.head?)

/-- Whether an operator waits depends on its two operands. -/
theorem waitsAt_cons (sig : Option Signature) (left right : Token) (more : List Token) :
    waitsAt sig left (right :: more) = (sig.any (·.isParam left) || sig.any (·.isParam right)
      || sig.any (·.isStringize right more.head?)) := by
  rw [waitsAt, Bool.or_assoc]
  rfl

/-- Every pasting operator of the list stands between two operands, and waits for the arguments. -/
structure Settled (sig : Option Signature) (ts : List Token) : Prop where
  spaced : Spaced ts
  waits : ∀ l left p r, ts = l ++ left :: p :: r → p.isPaste = true → waitsAt sig left r = true

/-- Pasting constants leaves a list alone in which every operator waits. -/
theorem Settled.pasteConstants {sig : Option Signature} {before body : List Token}
    (h : Settled sig (before.reverse ++ body)) :
    (pasteConstants sig before body).value = before.reverse ++ body := by
  fun_induction Preproc.pasteConstants sig before body with
  | case1 before => exact (List.append_nil _).symm
  | case2 t ht left older right more hlate ih =>
    have hsame : (t :: left :: older).reverse ++ right :: more =
        (left :: older).reverse ++ t :: right :: more := by simp
    rw [← hsame] at h ⊢
    exact ih h
  | case3 t ht left older right more hnow ih =>
    -- The operator does not wait.
    have hwaits := h.waits older.reverse left t (right :: more) (by simp) ht
    rw [waitsAt_cons] at hwaits
    exact absurd hwaits hnow
  | case4 t ht older more hends ih =>
    -- The operator would stand at an end.
    cases List.nil_or_nil_of_not_cons hends with
    | inl hnil =>
      have hhead := h.spaced.head
      simp [hnil, ht] at hhead
    | inr hnil =>
      have hlast := h.spaced.last
      simp [hnil, ht] at hlast
  | case5 before t rest ht hstringize ih =>
    rw [← reverse_pass_pair t before rest] at h ⊢
    exact ih h
  | case6 before t rest ht hstringize ih =>
    have hsame : (t :: before).reverse ++ rest = before.reverse ++ t :: rest := by simp
    rw [← hsame] at h ⊢
    exact ih h

/-! ## Operators that are left behind -/

/-- Every pasting operator among the tokens `before`, newest first, waits before `body`. -/
def WaitsBefore (sig : Option Signature) (before body : List Token) : Prop :=
  ∀ r p left l, before = r ++ p :: left :: l → p.isPaste = true →
    waitsAt sig left (r.reverse ++ body) = true

section WaitsBefore

variable {sig : Option Signature} {before body : List Token} {t : Token}

/-- The next token is passed, if it is an operator that waits or none. -/
theorem WaitsBefore.push (h : WaitsBefore sig before (t :: body))
    (ht : t.isPaste = true → ∀ left l, before = left :: l → waitsAt sig left body = true) :
    WaitsBefore sig (t :: before) body := by
  intro r p left l hsplit hp
  cases r with
  -- The token that is passed is the operator itself.
  | nil =>
    obtain ⟨rfl, hbefore⟩ := List.cons.inj hsplit
    exact ht hp left l hbefore
  -- The operator was passed before, so what follows it is the same.
  | cons u r =>
    obtain ⟨rfl, hbefore⟩ := List.cons.inj hsplit
    have hwaits := h r p left l hbefore hp
    rwa [List.reverse_cons, List.append_assoc, List.singleton_append]

/-- A pasting operator is no parameter. -/
private theorem not_isParam_of_isPaste (ht : t.isPaste = true) : sig.any (·.isParam t) = false := by
  cases sig with
  | none => rfl
  | some sig =>
    refine Bool.eq_false_iff.2 fun hparam => ?_
    rw [Token.isPaste, Signature.isOneOf_of_isParam hparam] at ht
    cases ht

/-- Only parameters are stringized. -/
private theorem isStringize_of_not_isParam {u : Token} (hu : sig.any (·.isParam u) = false) :
    sig.any (·.isStringize t (some u)) = false := by
  cases sig with
  | none => rfl
  | some sig =>
    have hparam : sig.isParam u = false := hu
    simp [Signature.isStringize, hparam]

/-- What stands behind an operator that waits may be pasted to what follows, if neither is a
parameter: the operator did not wait for it. -/
private theorem waitsAt_pasted {left' left right : Token} {a joined more : List Token}
    (hleft : sig.any (·.isParam left) = false) (ht : t.isPaste = true)
    (h : waitsAt sig left' (a ++ left :: t :: right :: more) = true) :
    waitsAt sig left' (a ++ (joined ++ more)) = true := by
  cases a with
  -- The operator stands right before the pair, so it must wait for what stands before it.
  | nil =>
    rw [List.nil_append, waitsAt_cons, hleft, List.head?_cons, isStringize_of_not_isParam
      (not_isParam_of_isPaste ht),
      Bool.or_false, Bool.or_false] at h
    rw [waitsAt, h, Bool.true_or]
  -- Only the two tokens behind an operator matter, and the pair does not stringize.
  | cons x a =>
    cases a with
    | nil =>
      rw [List.singleton_append, waitsAt_cons, List.head?_cons, isStringize_of_not_isParam hleft,
        Bool.or_false] at h
      rw [List.singleton_append, waitsAt_cons, h, Bool.true_or]
    | cons y a => exact h

end WaitsBefore

/-! ## Operators that are left -/

/-- Pasting constants leaves operators behind that wait, if it makes none. -/
theorem settled_pasteConstants {sig : Option Signature} {before body : List Token}
    (hspaced : Spaced (before.reverse ++ body)) (hwaits : WaitsBefore sig before body)
    (hmade : ∀ t ∈ madeConstants sig before body, t.isPaste = false) :
    Settled sig (pasteConstants sig before body).value := by
  fun_induction pasteConstants sig before body with
  -- All tokens have been passed.
  | case1 before =>
    rw [List.append_nil] at hspaced
    refine ⟨hspaced, fun l left p r hsplit hp => ?_⟩
    have hbefore : before = r.reverse ++ p :: left :: l.reverse := by
      rw [← List.reverse_reverse before]
      simp_all
    have := hwaits _ p left _ hbefore hp
    simpa using this
  -- The operator waits.
  | case2 t ht left older right more hlate ih =>
    rw [madeConstants, pastedPairs.eq_def] at hmade
    simp only [if_pos ht, if_pos hlate] at hmade
    refine ih (by simpa using hspaced) (hwaits.push fun _ left' l hbefore => ?_) hmade
    obtain ⟨rfl, rfl⟩ := List.cons.inj hbefore
    rwa [waitsAt_cons]
  | case3 t ht left older right more hnow ih =>
    rw [madeConstants, pastedPairs.eq_def] at hmade
    simp only [if_pos ht, if_neg hnow, List.flatMap_cons, List.mem_append] at hmade
    simp only [Bool.or_eq_true, not_or, Bool.not_eq_true] at hnow
    rw [List.reverse_cons, List.append_assoc, List.singleton_append] at hspaced
    -- Neither the operands nor what they make are operators.
    have hjoined : ∀ u ∈ (paste left right).value, u.isPaste = false := by
      obtain ⟨hleft, hright⟩ := hspaced.operands ht
      intro u hu
      rcases of_mem_paste hu with rfl | rfl | hpasted
      · exact hleft
      · exact hright
      · exact hmade u (.inl (by simp [hpasted]))
    apply ih _ _ _ fun u hu => hmade u (.inr hu)
    · simpa using hspaced.of_pasted (paste_ne_nil left right) hjoined
    · intro r p left' l hsplit hp
      obtain ⟨a, hr, -⟩ | ⟨a, rfl, holder⟩ := List.append_eq_append_cons hsplit
      · -- Pasting makes no operator.
        have hmem : p ∈ (paste left right).value.reverse := by simp [hr]
        rw [hjoined p (List.mem_reverse.1 hmem)] at hp
        cases hp
      · have hbefore := hwaits (left :: a) p left' l (by simp [holder]) hp
        rw [List.reverse_cons, List.append_assoc, List.singleton_append] at hbefore
        rw [List.reverse_append, List.reverse_reverse, List.append_assoc]
        exact waitsAt_pasted hnow.1.1 ht hbefore
  | case4 t ht older more hends ih =>
    -- The operator would stand at an end.
    cases List.nil_or_nil_of_not_cons hends with
    | inl hnil =>
      have hhead := hspaced.head
      simp [hnil, ht] at hhead
    | inr hnil =>
      have hlast := hspaced.last
      simp [hnil, ht] at hlast
  | case5 before t rest ht hstringize ih =>
    rw [madeConstants, pastedPairs.eq_def] at hmade
    simp only [if_neg ht, if_pos hstringize] at hmade
    -- The parameter behind a stringizing operator is passed with it.
    cases rest with
    | nil => cases sig <;> simp [Signature.isStringize] at hstringize
    | cons u rest =>
      have hu : ¬u.isPaste = true := fun hpaste => by
        rw [List.head?_cons, isStringize_of_not_isParam (not_isParam_of_isPaste hpaste)]
          at hstringize
        cases hstringize
      apply ih _ _ hmade
      · simpa using hspaced
      · exact (hwaits.push fun hp => absurd hp ht).push fun hp => absurd hp hu
  | case6 before t rest ht hstringize ih =>
    rw [madeConstants, pastedPairs.eq_def] at hmade
    simp only [if_neg ht, if_neg hstringize] at hmade
    exact ih (by simpa using hspaced) (hwaits.push fun hp => absurd hp ht) hmade

/-! ## Trimming again -/

/-- Operators that stand apart are no run. -/
private theorem collapsePastes_of_isChain {inRun : Bool} {ts : List Token} (h : ts.IsChain Apart)
    (hrun : inRun = true → ts.head?.any Token.isPaste = false) : collapsePastes inRun ts = ts := by
  induction ts generalizing inRun with
  | nil => rfl
  | cons t ts ih =>
    obtain ⟨hnext, hchain⟩ := List.isChain_cons.1 h
    rw [collapsePastes, if_neg (fun hskip => ?_), ih hchain fun ht => ?_]
    · -- The next token is no operator if this one is.
      rw [Bool.eq_false_iff]
      intro hany
      obtain ⟨u, hu, hpaste⟩ := (Option.any_eq_true _ _).1 hany
      exact hnext u hu ⟨ht, hpaste⟩
    · rw [Bool.and_eq_true] at hskip
      have hhead := hrun hskip.1
      rw [List.head?_cons, Option.any_some, hskip.2] at hhead
      cases hhead

/-- Nothing is dropped from a list that does not start with an operator. -/
private theorem dropWhile_of_head? {ts : List Token} (h : ts.head?.any Token.isPaste = false) :
    ts.dropWhile Token.isPaste = ts := by
  cases ts with
  | nil => rfl
  | cons t ts => exact List.dropWhile_cons_of_neg (by simpa using h)

/-- The first token of the list has no white space before it. -/
def StartsTight (ts : List Token) : Prop :=
  ts.head?.map (·.prevWhite) ≠ some true

private theorem startsTight_dropLeadingWhite (ts : List Token) :
    StartsTight (dropLeadingWhite ts) := by
  cases ts <;> simp [StartsTight, dropLeadingWhite, Token.withWhite]

/-- Where there is none, nothing is dropped. -/
private theorem dropLeadingWhite_of_startsTight {ts : List Token} (h : StartsTight ts) :
    dropLeadingWhite ts = ts := by
  cases ts with
  | nil => rfl
  | cons t ts =>
    obtain ⟨kind, value, file, line, col, prevWhite, bol, expandedFrom, expandable⟩ := t
    obtain rfl : prevWhite = false := by simpa [StartsTight] using h
    rfl

/-- Trimming leaves a list alone whose operators stand apart. -/
private theorem trimmedBody_of_spaced {ts : List Token} (h : Spaced ts) (hwhite : StartsTight ts)
    (name : String) : (trimmedBody name ts).value = ts := by
  have hlast : ts.reverse.head?.any Token.isPaste = false := by
    rw [List.head?_reverse]
    exact h.last
  rw [trimmedBody, Noted.value_map, collapsePastes_of_isChain h.chain (by simp), trimPastes,
    dropWhile_of_head? h.head, dropWhile_of_head? hlast, List.reverse_reverse,
    dropLeadingWhite_of_startsTight hwhite]

/-- What two tokens are pasted to has the white space of the first before it. -/
private theorem head?_paste (left right : Token) :
    (paste left right).value.head?.map (·.prevWhite) = some left.prevWhite := by
  rcases paste_cases left right with hboth | ⟨t, -, -, hone⟩
  · rw [hboth]
    rfl
  · rw [hone]
    rfl

/-- Pasting constants leaves the white space before the first token alone. -/
private theorem head?_pasteConstants {sig : Option Signature} {before body : List Token}
    (h : before ≠ []) : (pasteConstants sig before body).value.head?.map (·.prevWhite) =
      before.getLast?.map (·.prevWhite) := by
  fun_induction pasteConstants sig before body with
  | case1 before => rw [Noted.value_pure, List.head?_reverse]
  | case2 t ht left older right more hlate ih =>
    rw [ih (by simp), List.getLast?_cons_cons]
  | case3 t ht left older right more hnow ih =>
    have hfirst := ih (paste left right).value (by simp [paste_ne_nil])
    rw [List.getLast?_append, List.getLast?_reverse] at hfirst
    rw [Noted.value_bind, hfirst, List.getLast?_cons]
    -- What is pasted is first only if nothing stands before it.
    cases older.getLast? with
    | none => exact head?_paste left right
    | some u => rfl
  | case4 t ht older more hends ih => exact ih h
  | case5 before t rest ht hstringize ih =>
    rw [ih (by simp), List.getLast?_append, List.getLast?_cons_of_ne_nil h]
    cases hlast : before.getLast? with
    | none => exact absurd (List.getLast?_eq_none_iff.1 hlast) h
    | some u => rfl
  | case6 before t rest ht hstringize ih =>
    rw [ih (by simp), List.getLast?_cons_of_ne_nil h]

/-- Pasting constants brings no white space before the first token. -/
private theorem startsTight_pasteConstants {sig : Option Signature} {body : List Token}
    (h : Spaced body) (hwhite : StartsTight body) :
    StartsTight (pasteConstants sig [] body).value := by
  cases body with
  | nil =>
    rw [pasteConstants]
    exact hwhite
  | cons t rest =>
    have ht : ¬t.isPaste = true := by simpa using h.head
    -- The first token is no operator, so there are tokens behind from then on.
    have hfirst : (pasteConstants sig [] (t :: rest)).value.head?.map (·.prevWhite) =
        some t.prevWhite := by
      rw [pasteConstants.eq_def]
      simp only [if_neg ht]
      split
      · rw [head?_pasteConstants (by simp), List.getLast?_append]
        rfl
      · rw [head?_pasteConstants (by simp)]
        rfl
    rw [StartsTight, hfirst]
    exact hwhite

namespace Macro

/-- Normalizing a replacement list again leaves it unchanged, if pasting made no operator. -/
theorem body_ofDefinition_again {name name' : String} {params params' : Option (List String)}
    {ts : List Token}
    (hparams : params'.map Signature.ofSpellings = params.map Signature.ofSpellings)
    (hmade : ∀ t ∈ madeConstants (params.map Signature.ofSpellings) [] (trimmedBody name ts).value,
      t.isPaste = false) :
    (ofDefinition name' params' (ofDefinition name params ts).value.body).value.body =
      (ofDefinition name params ts).value.body := by
  have hspaced := spaced_trimmedBody name ts
  -- After the first time no two constants are left to join,
  have hsettled : Settled (params.map Signature.ofSpellings)
      (ofDefinition name params ts).value.body := by
    rw [body_ofDefinition]
    apply @settled_pasteConstants _ [] _ hspaced _ hmade
    intro r p left l hsplit
    cases r <;> cases hsplit
  -- and the text starts without white space, so trimming leaves it alone.
  have htight : StartsTight (ofDefinition name params ts).value.body := by
    rw [body_ofDefinition]
    exact startsTight_pasteConstants hspaced (startsTight_dropLeadingWhite _)
  rw [body_ofDefinition name', hparams, trimmedBody_of_spaced hsettled.spaced htight]
  exact @Settled.pasteConstants _ [] _ hsettled

end Macro

end Preproc
