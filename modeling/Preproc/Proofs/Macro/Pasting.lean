import Preproc.Proofs.Expansion.Totality
import Preproc.Proofs.ForStd
import Preproc.Proofs.Lexing.Lexemes

/-!
# Pasting in a replacement list

Pasting joins two tokens to one that is read from their text and takes the place of the first, or
leaves them both. This is all that happens while the constants of a replacement list are pasted:
at each step the tokens behind and those ahead are a list that came of the trimmed one by pasting
some of its operands. So the tokens of a normal form are those of the definition, or are read.

## Key results

- `paste_cases`: what pasting two tokens gives
- `pasteConstants_induction`: all that pasting constants does
- `Macro.exists_of_mem_ofDefinition`: where the tokens of a normal form come from
-/

namespace Preproc

/-! ## Two tokens -/

/-- The token was read from some text. -/
def Token.Read (t : Token) : Prop :=
  ∃ text, t.face ∈ lexemes (logicalText text)

/-- Being read is a matter of the kind and the text. -/
theorem Token.Read.of_face {t u : Token} (h : t.Read) (hface : u.face = t.face) : u.Read := by
  rw [Read, hface]
  exact h

/-- The token in the place of `left`, as pasting puts it. -/
def Token.inPlaceOf (t left : Token) : Token :=
  { t with
    file := left.file
    line := left.line
    col := left.col
    prevWhite := left.prevWhite
    bol := false
    expandedFrom := left.expandedFrom }

/-- Pasting gives one token that is read from the text of both, or the two as they are. -/
theorem paste_cases (left right : Token) :
    (paste left right).value = [left, right] ∨
      ∃ t, (relex (left.value ++ right.value).toList).value = [t] ∧
        t.value = left.value ++ right.value ∧ (paste left right).value = [t.inPlaceOf left] := by
  unfold paste
  simp only [Noted.value_bind]
  split
  · rename_i t hread
    split
    · -- The two spell one token, with nothing left over.
      rename_i hvalue
      exact .inr ⟨t, hread, hvalue, rfl⟩
    · exact .inl rfl
  · exact .inl rfl

/-- Pasting leaves something. -/
theorem paste_ne_nil (left right : Token) : (paste left right).value ≠ [] := by
  obtain h | ⟨t, -, -, h⟩ := paste_cases left right <;> simp [h]

/-- The token that two operands are pasted to, if they can be. -/
def pasted? (left right : Token) : Option Token :=
  if (paste left right).value.length = 1 then (paste left right).value.head? else none

/-- What pasting leaves are its operands, or the token they are pasted to. -/
theorem of_mem_paste {left right t : Token} (h : t ∈ (paste left right).value) :
    t = left ∨ t = right ∨ pasted? left right = some t := by
  rcases paste_cases left right with hboth | ⟨u, -, -, hone⟩
  · rw [hboth] at h
    rcases List.mem_pair.1 h with hleft | hright
    · exact .inl hleft
    · exact .inr (.inl hright)
  · rw [hone, List.mem_singleton] at h
    right
    right
    rw [pasted?, hone, h]
    rfl

/-- The token that two operands are pasted to is read from their text. -/
theorem read_of_pasted? {left right t : Token} (h : pasted? left right = some t) : t.Read := by
  rcases paste_cases left right with hboth | ⟨u, hread, -, hone⟩
  · rw [pasted?, hboth] at h
    cases h
  · rw [pasted?, hone] at h
    obtain rfl := Option.some.inj h
    -- The token is the only one of a text.
    have hu : u.Read := by
      refine ⟨(left.value ++ right.value).toList, ?_⟩
      rw [← face_relex, hread]
      exact List.mem_singleton_self _
    exact hu.of_face rfl

/-! ## Constants -/

/-- A token and the one after it are passed. -/
theorem reverse_pass_pair (t : Token) (before rest : List Token) :
    ((rest.take 1).reverse ++ t :: before).reverse ++ rest.drop 1 =
      before.reverse ++ t :: rest := by
  rw [List.reverse_append, List.reverse_reverse, List.reverse_cons, List.append_assoc,
    List.append_assoc, List.take_append_drop, List.singleton_append]

/-- All that pasting constants does: what holds of the list `before.reverse ++ body` and is kept
where two operands are pasted and where an operator at an end is dropped holds of the result. -/
theorem pasteConstants_induction {P : List Token → Prop} {sig : Option Signature}
    (hpaste : ∀ (l : List Token) (left p right : Token) (r : List Token), p.isPaste = true →
      P (l ++ left :: p :: right :: r) → P (l ++ ((paste left right).value ++ r)))
    (hdrop : ∀ (l : List Token) (p : Token) (r : List Token), p.isPaste = true → l = [] ∨ r = [] →
      P (l ++ p :: r) → P (l ++ r))
    {before body : List Token} (h : P (before.reverse ++ body)) :
    P (pasteConstants sig before body).value := by
  -- Most steps move tokens from `body` to `before`, which leaves the list as it is.
  fun_induction pasteConstants sig before body with
  | case1 before => rwa [List.append_nil] at h
  -- An operand that depends on arguments is left for later, operator and all.
  | case2 t ht left older right more hlate ih =>
    apply ih
    simpa using h
  -- Both operands are constants.
  | case3 t ht left older right more hnow ih =>
    apply ih
    rw [List.reverse_cons, List.append_assoc, List.singleton_append] at h
    simpa using hpaste _ _ _ _ _ ht h
  -- The operator lacks an operand.
  | case4 t ht older more hends ih =>
    apply ih
    apply hdrop _ _ _ ht _ h
    rw [List.reverse_eq_nil_iff]
    exact List.nil_or_nil_of_not_cons hends
  -- The stringizing operator is passed with its operand.
  | case5 before t rest ht hstringize ih =>
    apply ih
    rwa [reverse_pass_pair]
  | case6 before t rest ht hstringize ih =>
    apply ih
    simpa using h

/-! ## Where the tokens come from -/

/-- No token is added where runs of operators are made one. -/
private theorem mem_of_mem_collapsePastes {inRun : Bool} {ts : List Token} {t : Token}
    (h : t ∈ collapsePastes inRun ts) : t ∈ ts := by
  fun_induction collapsePastes inRun ts with
  | case1 => cases h
  | case2 inRun u us _ ih => exact List.mem_cons_of_mem _ (ih h)
  | case3 inRun u us _ ih =>
    cases List.mem_cons.1 h with
    | inl heq => exact heq ▸ List.mem_cons_self
    | inr hmem => exact List.mem_cons_of_mem _ (ih hmem)

/-- No token is added where operators at the ends are dropped. -/
private theorem mem_of_mem_trimPastes {name : String} {ts : List Token} {t : Token}
    (h : t ∈ (trimPastes name ts).value) : t ∈ ts := by
  have hrest := (List.dropWhile_sublist _).subset (List.mem_reverse.1 h)
  exact (List.dropWhile_sublist _).subset (List.mem_reverse.1 hrest)

/-- The tokens of a trimmed replacement list are those of the list, but for the white space before
the first. -/
private theorem exists_of_mem_trimmedBody {name : String} {ts : List Token} {t : Token}
    (h : t ∈ (trimmedBody name ts).value) : ∃ u ∈ ts, t.face = u.face := by
  have hcore : ∀ u ∈ (trimPastes name (collapsePastes false ts)).value, u ∈ ts := fun u hu =>
    mem_of_mem_collapsePastes (mem_of_mem_trimPastes hu)
  rw [trimmedBody, Noted.value_map] at h
  cases hvalue : (trimPastes name (collapsePastes false ts)).value with
  | nil =>
    rw [hvalue] at h
    cases h
  | cons u us =>
    rw [hvalue] at h hcore
    -- The first token loses its mark of white space, and keeps its face.
    rcases List.mem_cons.1 h with rfl | hmem
    · exact ⟨u, hcore u List.mem_cons_self, rfl⟩
    · exact ⟨t, hcore t (List.mem_cons_of_mem u hmem), rfl⟩

/-- Pasting constants adds tokens that are read. -/
private theorem of_mem_pasteConstants {sig : Option Signature} {body : List Token} {t : Token}
    (h : t ∈ (pasteConstants sig [] body).value) : t ∈ body ∨ t.Read := by
  revert t
  apply pasteConstants_induction (P := fun ts => ∀ {t : Token}, t ∈ ts → t ∈ body ∨ t.Read)
  · -- Two constants are joined, and a token of the result is one of them or has been read.
    intro l left p right r _ hfrom t ht
    rw [List.mem_append, List.mem_append] at ht
    rcases ht with hl | hjoined | hr
    · exact hfrom (by simp [hl])
    · rcases of_mem_paste hjoined with rfl | rfl | hpasted
      · exact hfrom (by simp)
      · exact hfrom (by simp)
      · exact .inr (read_of_pasted? hpasted)
    · exact hfrom (by simp [hr])
  · -- An operator without two operands is dropped.
    intro l p r _ _ hfrom t ht
    rw [List.mem_append] at ht
    rcases ht with hl | hr
    · exact hfrom (by simp [hl])
    · exact hfrom (by simp [hr])
  · -- At the beginning all tokens are those of the text.
    intro t ht
    exact .inl ht

namespace Macro

/-- The replacement list of a normal form, for both kinds of macros. -/
theorem body_ofDefinition (name : String) (params : Option (List String)) (ts : List Token) :
    (ofDefinition name params ts).value.body =
      (pasteConstants (params.map Signature.ofSpellings) [] (trimmedBody name ts).value).value := by
  cases params <;> rfl

/-- A token of a normal form has the face of a token of the definition, or of one that is read. -/
theorem exists_of_mem_ofDefinition {name : String} {params : Option (List String)}
    {ts : List Token} {t : Token} (h : t ∈ (ofDefinition name params ts).value.body) :
    (∃ u ∈ ts, t.face = u.face) ∨ t.Read := by
  rw [body_ofDefinition] at h
  rcases of_mem_pasteConstants h with hmem | hread
  · exact .inl (exists_of_mem_trimmedBody hmem)
  · exact .inr hread

end Macro

end Preproc
