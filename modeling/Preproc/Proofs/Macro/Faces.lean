import Preproc.Proofs.Lexing.Readings
import Preproc.Proofs.Macro.NormalForm

/-!
# What a definition does not look at

Reading a definition and putting its replacement list into normal form looks at the kinds and the
values of tokens, and at little else. A change to tokens that leaves their faces alone goes through
the whole normal form: normalizing the changed list is changing the normalized one. So neither the
places of tokens nor, once the definition is read, the white space between them matters.

## Key results

- `Incidental.pasteConstants`, `Macro.mapBody_ofDefinition`: such a change goes through the normal
  form
- `Macro.face_ofDefinition`: the normal form depends on kinds and values alone, up to the rest
- `unplaced_readDefinition`: definitions are read without regard to places
- `Macro.unplaced_ofText`: what a text defines, apart from places, is told by its logical text
-/

namespace Preproc

namespace Token

/-- The token as far as its kind and value go. -/
def bare (t : Token) : Token :=
  { kind := t.kind, value := t.value, file := "", line := 0, col := 0 }

/-- A change to tokens that leaves their faces alone, and commutes with what the normal form does to
the rest of them. Pasting gives places only to tokens it has just read. -/
structure Incidental (f : Token → Token) : Prop where
  face : ∀ t, (f t).face = t.face
  white : ∀ t : Token, f (t.withWhite false) = (f t).withWhite false
  place : ∀ t left : Token, t.expandable = true → f (t.inPlaceOf left) = t.inPlaceOf (f left)

/-- Forgetting places is incidental. -/
theorem incidental_unplaced : Incidental unplaced :=
  ⟨fun _ => rfl, fun _ => rfl, fun _ _ _ => rfl⟩

/-- Faces tell all that is left of bare tokens. -/
private theorem map_bare_of_face {ts us : List Token} (h : ts.map face = us.map face) :
    ts.map bare = us.map bare := by
  have hbare : bare =
      (fun f => { kind := f.1, value := f.2, file := "", line := 0, col := 0 }) ∘ face := rfl
  rw [hbare, ← List.map_map, h, List.map_map]

/-- Forgetting all but kinds and values is incidental. -/
private theorem incidental_bare : Incidental bare := by
  refine ⟨fun _ => rfl, fun _ => rfl, fun t left hread => ?_⟩
  -- Tokens that are read may be expanded, as bare ones may.
  rw [inPlaceOf, inPlaceOf, hread]
  rfl

namespace Incidental

variable {f : Token → Token} (hf : Incidental f)

include hf

theorem kind (t : Token) : (f t).kind = t.kind :=
  (Prod.mk.inj (hf.face t)).1

theorem value (t : Token) : (f t).value = t.value :=
  (Prod.mk.inj (hf.face t)).2

theorem isName (t : Token) : (f t).isName = t.isName := by
  rw [Token.isName, Token.isName, hf.kind]

theorem isOneOf (t : Token) (values : List String) : (f t).isOneOf values = t.isOneOf values := by
  rw [Token.isOneOf, Token.isOneOf, hf.kind, hf.value]

theorem isPaste (t : Token) : (f t).isPaste = t.isPaste :=
  hf.isOneOf t _

theorem isHash (t : Token) : (f t).isHash = t.isHash :=
  hf.isOneOf t _

theorem index? (sig : Signature) (t : Token) : sig.index? (f t) = sig.index? t := by
  rw [Signature.index?, Signature.index?, hf.isName, hf.value]

theorem isParam (sig : Signature) (t : Token) : sig.isParam (f t) = sig.isParam t := by
  rw [Signature.isParam, Signature.isParam, hf.index?]

theorem isStringize (sig : Signature) (t : Token) (next : Option Token) :
    sig.isStringize (f t) (next.map f) = sig.isStringize t next := by
  simp only [Signature.isStringize, hf.isHash, Option.any_map, hf.isParam]

/-! ### The normal form -/

/-- The change goes through making runs of operators one. -/
theorem collapsePastes (inRun : Bool) (ts : List Token) :
    collapsePastes inRun (ts.map f) = (collapsePastes inRun ts).map f := by
  fun_induction Preproc.collapsePastes inRun ts with
  | case1 => rfl
  | case2 inRun t ts hskip ih =>
    rw [List.map_cons, Preproc.collapsePastes, hf.isPaste, if_pos hskip, ih]
  | case3 inRun t ts hkeep ih =>
    rw [List.map_cons, Preproc.collapsePastes, hf.isPaste, if_neg hkeep, ih, List.map_cons]

/-- The change goes through dropping operators at the ends. -/
theorem trimPastes (name : String) (ts : List Token) :
    (trimPastes name (ts.map f)).value = (trimPastes name ts).value.map f := by
  have hpaste : Token.isPaste ∘ f = Token.isPaste := funext hf.isPaste
  simp only [Preproc.trimPastes, List.dropWhile_map, ← List.map_reverse, hpaste]

/-- The change goes through dropping white space before the first token. -/
theorem dropLeadingWhite (ts : List Token) :
    dropLeadingWhite (ts.map f) = (dropLeadingWhite ts).map f := by
  cases ts with
  | nil => rfl
  | cons t ts => simp only [List.map_cons, Preproc.dropLeadingWhite, hf.white]

/-- The change goes through trimming. -/
theorem trimmedBody (name : String) (body : List Token) :
    (trimmedBody name (body.map f)).value = (trimmedBody name body).value.map f := by
  rw [Preproc.trimmedBody, Preproc.trimmedBody, Noted.value_map, Noted.value_map,
    hf.collapsePastes, hf.trimPastes, hf.dropLeadingWhite]

/-- The change goes through pasting two tokens. -/
theorem paste (left right : Token) :
    (paste (f left) (f right)).value = (paste left right).value.map f := by
  unfold Preproc.paste
  simp only [Noted.value_bind, hf.value]
  split
  · split
    · rename_i t hread _
      -- The token in place of the two is a fresh one.
      have hexpandable : t.expandable = true := expandable_of_mem_relex (by rw [hread]; simp)
      exact congrArg ([·]) (hf.place t left hexpandable).symm
    · rfl
  · rfl

/-- The change goes through pasting constants. -/
theorem pasteConstants (sig : Option Signature) (before body : List Token) :
    (pasteConstants sig (before.map f) (body.map f)).value =
      (pasteConstants sig before body).value.map f := by
  -- Which branch is taken depends on faces, so both lists take the same one at every step.
  fun_induction Preproc.pasteConstants sig before body with
  | case1 before =>
    rw [List.map_nil, Preproc.pasteConstants, ← List.map_reverse]
    rfl
  | case2 t ht left older right more hlate ih =>
    rw [Preproc.pasteConstants.eq_def]
    simp only [List.map_cons, hf.isPaste, ht, if_true, hf.isParam, List.head?_map, hf.isStringize,
      hlate]
    exact ih
  | case3 t ht left older right more hnow ih =>
    rw [Preproc.pasteConstants.eq_def]
    simp only [List.map_cons, hf.isPaste, ht, if_true, hf.isParam, List.head?_map, hf.isStringize,
      hnow]
    simpa [hf.paste] using ih (Preproc.paste left right).value
  -- The operator has nothing before it or nothing behind it, and so has the changed one.
  | case4 t ht older more hends ih =>
    rw [Preproc.pasteConstants.eq_def]
    simp only [List.map_cons, hf.isPaste, ht, if_true]
    cases List.nil_or_nil_of_not_cons hends with
    | inl hnil =>
      subst hnil
      simpa using ih
    | inr hnil =>
      subst hnil
      simpa using ih
  | case5 before t rest ht hstringize ih =>
    rw [Preproc.pasteConstants.eq_def]
    simp only [List.map_cons, hf.isPaste, ht, List.head?_map, hf.isStringize, hstringize, if_true,
      ← List.map_take, ← List.map_drop, ← List.map_reverse]
    simpa using ih
  | case6 before t rest ht hstringize ih =>
    rw [Preproc.pasteConstants.eq_def]
    simp only [List.map_cons, hf.isPaste, ht, List.head?_map, hf.isStringize, hstringize]
    simpa using ih

/-- A parameter occurs plainly where it did before. -/
theorem occursPlainly (sig : Signature) (i : Nat) (prev : Option Token) (ts : List Token) :
    sig.occursPlainly i (prev.map f) (ts.map f) = sig.occursPlainly i prev ts := by
  induction ts generalizing prev with
  | nil => rfl
  | cons t ts ih =>
    have hmore := ih (some t)
    rw [Option.map_some] at hmore
    simp only [List.map_cons, Signature.occursPlainly, hmore, hf.index?, Option.any_map, hf.isPaste,
      hf.isHash, List.head?_map]

/-- The plain parameters stay the same. -/
theorem plainParams (sig : Signature) (body : List Token) :
    sig.plainParams (body.map f) = sig.plainParams body := by
  refine List.map_congr_left fun i _ => ?_
  exact hf.occursPlainly sig i none body

end Incidental

end Token

/-- The macro with the tokens of its replacement list changed. -/
def Macro.mapBody (f : Token → Token) : Macro → Macro
  | object name body => .object name (body.map f)
  | function name sig plain body => .function name sig plain (body.map f)
  | builtin name value => .builtin name value

private theorem Macro.body_mapBody (f : Token → Token) (m : Macro) :
    (m.mapBody f).body = m.body.map f := by
  cases m <;> rfl

/-- The macro without the places of its tokens. -/
def Macro.unplaced : Macro → Macro :=
  mapBody Token.unplaced

theorem Macro.name_unplaced (m : Macro) : m.unplaced.name = m.name := by
  cases m <;> rfl

theorem Macro.signature?_unplaced (m : Macro) : m.unplaced.signature? = m.signature? := by
  cases m <;> rfl

theorem Macro.body_unplaced (m : Macro) : m.unplaced.body = m.body.map Token.unplaced :=
  m.body_mapBody _

/-- Faces have no places. -/
theorem Macro.face_body_unplaced (m : Macro) :
    m.unplaced.body.map Token.face = m.body.map Token.face := by
  rw [Macro.body_unplaced, List.map_map]
  rfl

/-- A definition whose tokens are changed incidentally defines the macro changed likewise. -/
theorem Macro.mapBody_ofDefinition {f : Token → Token} (hf : Token.Incidental f) (name : String)
    (params : Option (List String)) (body : List Token) :
    (Macro.ofDefinition name params (body.map f)).value =
      (Macro.ofDefinition name params body).value.mapBody f := by
  -- Trimming and joining constants both go along with `f`.
  have hpasted := fun sig => hf.pasteConstants sig [] (trimmedBody name body).value
  rw [List.map_nil] at hpasted
  cases params with
  | none =>
    simp only [Macro.ofDefinition, Macro.ofBody, Noted.value_bind, Noted.value_map, Macro.mapBody,
      hf.trimmedBody, hpasted]
  | some params =>
    simp only [Macro.ofDefinition, Macro.ofFunction, Noted.value_bind, Noted.value_map,
      Macro.mapBody, hf.trimmedBody, hpasted, hf.plainParams]

/-- The kinds and values of a replacement list tell those of its normal form. -/
theorem Macro.face_ofDefinition {ts us : List Token} (h : ts.map Token.face = us.map Token.face)
    (name : String) (params : Option (List String)) :
    (Macro.ofDefinition name params ts).value.body.map Token.face =
      (Macro.ofDefinition name params us).value.body.map Token.face := by
  -- The normal form of a list has the faces of that of the bare list.
  have hbare : ∀ ts : List Token, (Macro.ofDefinition name params ts).value.body.map Token.face =
      (Macro.ofDefinition name params (ts.map Token.bare)).value.body.map Token.face := by
    intro ts
    rw [Macro.mapBody_ofDefinition Token.incidental_bare, Macro.body_mapBody, List.map_map]
    rfl
  rw [hbare, Token.map_bare_of_face h, ← hbare]

/-! ## Reading definitions -/

section Reading

open Token

private theorem isPunctuator_unplaced (t : Token) (value : String) :
    t.unplaced.isPunctuator value = t.isPunctuator value := rfl

private theorem isName_unplaced (t : Token) : t.unplaced.isName = t.isName := rfl

/-- Parameters are read without regard to places. -/
private theorem unplaced_readParams (ts : List Token) :
    readParams (ts.map unplaced) =
      ((readParams ts).1.map unplaced, (readParams ts).2.map unplaced) := by
  -- Each branch tests kinds and texts alone, which places leave as they are.
  fun_induction readParams ts with
  | case1 => rfl
  | case2 t rest ht =>
    rw [List.map_cons, readParams.eq_def]
    simp only [isPunctuator_unplaced, ht, if_true]
    rfl
  | case3 t ht hn => simp [readParams, isPunctuator_unplaced, isName_unplaced, ht, hn]
  | case4 t ht hn d more hd =>
    simp only [List.map_cons, readParams, isPunctuator_unplaced, isName_unplaced, ht, hn, hd,
      if_true]
    rfl
  | case5 t ht hn d more hd hcomma ps last hmore ih =>
    simp only [hmore] at ih
    simp [readParams, isPunctuator_unplaced, isName_unplaced, ht, hn, hd, hcomma, ih]
  | case6 t ht hn d more hd hcomma =>
    simp [readParams, isPunctuator_unplaced, isName_unplaced, ht, hn, hd, hcomma]
  | case7 t rest ht hn =>
    rw [List.map_cons, readParams.eq_def]
    simp [isPunctuator_unplaced, isName_unplaced, ht, hn]

/-- Parameter lists are read without regard to places. -/
private theorem unplaced_readSignature? (ts : List Token) :
    readSignature? (ts.map unplaced) =
      (readSignature? ts).map fun r => (r.1.map unplaced, r.2.map unplaced) := by
  cases ts with
  | nil => rfl
  | cons t rest =>
    -- Whether a parenthesis follows directly is told by white space, not by its place.
    have hparen : (t.unplaced.isPunctuator "(" && !t.unplaced.prevWhite) =
        (t.isPunctuator "(" && !t.prevWhite) := rfl
    rw [List.map_cons, readSignature?, readSignature?, hparen, unplaced_readParams]
    split
    · cases hread : readParams rest with
      | mk ps last =>
        cases last with
        | nil => rfl
        | cons u last =>
          cases hclose : u.isPunctuator ")" <;> simp [isPunctuator_unplaced, hclose]
    · rfl

/-- Definitions are read without regard to places. -/
theorem unplaced_readDefinition (ts : List Token) :
    readDefinition (ts.map unplaced) =
      (readDefinition ts).map fun r =>
        ((r.1.1.unplaced, r.1.2.map (·.map unplaced)), r.2.map unplaced) := by
  cases ts with
  | nil => rfl
  | cons t rest =>
    rw [List.map_cons, readDefinition, readDefinition, isName_unplaced, unplaced_readSignature?]
    split
    · cases readSignature? rest with
      | none => rfl
      | some r => rfl
    · rfl

/-- What is read of tokens without their places is read of the tokens themselves. -/
theorem of_readDefinition_unplaced {ts body : List Token} {name : Token}
    {params : Option (List Token)}
    (h : readDefinition (ts.map unplaced) = .ok ((name, params), body)) :
    ∃ name' params' body', readDefinition ts = .ok ((name', params'), body') ∧
      name'.value = name.value ∧
      params'.map (·.map (·.value)) = params.map (·.map (·.value)) ∧
      body'.map unplaced = body := by
  rw [unplaced_readDefinition] at h
  cases hread : readDefinition ts with
  -- Whether it can be read does not depend on the places.
  | error e =>
    rw [hread] at h
    cases h
  | ok r =>
    obtain ⟨⟨name', params'⟩, body'⟩ := r
    rw [hread] at h
    simp only [Except.map, Except.ok.injEq, Prod.mk.injEq] at h
    obtain ⟨⟨rfl, rfl⟩, rfl⟩ := h
    refine ⟨name', params', body', rfl, rfl, ?_, rfl⟩
    cases params' with
    | none => rfl
    | some ps =>
      simp only [Option.map_some, List.map_map]
      rfl

/-- The equals sign before a body is found without regard to places. -/
private theorem unplaced_dropEquals (ts : List Token) :
    dropEquals (ts.map unplaced) = (dropEquals ts).map unplaced := by
  cases ts with
  | nil => rfl
  | cons t rest =>
    have hequals : (t.unplaced.isPunctuator "=" && !t.unplaced.prevWhite) =
        (t.isPunctuator "=" && !t.prevWhite) := rfl
    rw [List.map_cons, dropEquals, dropEquals, hequals]
    split <;> rfl

/-- What a text defines, apart from places, is told by its logical text. -/
theorem Macro.unplaced_ofText {text : String} {name : Token} {params : Option (List Token)}
    {body : List Token}
    (h : readDefinition (readings false true (logicalText text.toList)).dropLast =
      .ok ((name, params), body)) :
    ∃ m, (Macro.ofText text).value = .ok m ∧
      m.unplaced = (Macro.ofDefinition name.value (params.map (·.map (·.value)))
        (dropEquals body)).value := by
  -- What is read of the logical text are the tokens of the definition without their places.
  rw [← unplaced_all "<command line>"] at h
  obtain ⟨name', params', body', hread, hname, hparams, rfl⟩ := of_readDefinition_unplaced h
  refine ⟨(Macro.ofDefinition name'.value (params'.map (·.map (·.value)))
    (dropEquals body')).value, ?_, ?_⟩
  · unfold Macro.ofText
    simp only [Noted.value_bind, hread]
    rfl
  · rw [unplaced_dropEquals, Macro.mapBody_ofDefinition incidental_unplaced, hname, hparams]
    rfl

end Reading

end Preproc
