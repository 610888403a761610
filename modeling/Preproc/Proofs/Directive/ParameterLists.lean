import Mathlib.Data.List.Basic
import Preproc.Directive.Grammar
import Preproc.Proofs.Samples

/-!
# Parameter lists

The parameter list of a definition stands in parentheses directly behind the name. Its parameters
are names with commas between them, and the last one may be variable: three dots, with or without a
name before them. `SignatureTokens` is this grammar, over the tokens behind the name.

What is read as a parameter list is all of this, and one thing more: a comma may stand behind the
last parameter, if that is not variable (`CommaSignature`). The reader has then taken the comma
before it sees that no parameter follows, and does not give it back.

## Key results

- `Parameters.readParams_close`, `Parameters.readParams_comma`: how far parameters are read
- `readParams_cases`: all that reading parameters can give
- `readSignature?_eq_some_iff`: the parameter lists that are read
- `definition_grammar`: when a definition is read by the grammar
- `not_readsByGrammar_comma`: a parameter list that ends in a comma
-/

namespace Preproc

/-! ## The grammar -/

/-- The tokens of a parameter, the parameter that they give, and whether it is variable. -/
inductive Parameter : List Token → Token → Bool → Prop
  | name {t : Token} (name : t.isName = true) : Parameter [t] t false
  | namedDots {t d : Token} (name : t.isName = true) (dots : d.isPunctuator "..." = true) :
      Parameter [t, d] { t with value := t.value ++ "..." } true
  | dots {d : Token} (dots : d.isPunctuator "..." = true) : Parameter [d] (unnamedVariable d) true

/-- The tokens of parameters with commas between them, the parameters, and whether the last one is
variable. The others are not. -/
inductive Parameters : List Token → List Token → Bool → Prop
  | last {ts : List Token} {p : Token} {dotted : Bool} (param : Parameter ts p dotted) :
      Parameters ts [p] dotted
  | more {ts us ps : List Token} {p c : Token} {dotted : Bool} (param : Parameter ts p false)
      (comma : c.isPunctuator "," = true) (rest : Parameters us ps dotted) :
      Parameters (ts ++ c :: us) (p :: ps) dotted

/-- A parenthesis that opens a parameter list. -/
def Token.opensSignature (t : Token) : Bool :=
  t.isPunctuator "(" && !t.prevWhite

/-- Tokens that start with a parameter list, its parameters, and the tokens behind it. -/
inductive SignatureTokens : List Token → List Token → List Token → Prop
  | empty {o c : Token} {rest : List Token} (opening : o.opensSignature = true)
      (closing : c.isPunctuator ")" = true) : SignatureTokens (o :: c :: rest) [] rest
  | params {o c : Token} {ts ps rest : List Token} {dotted : Bool}
      (opening : o.opensSignature = true) (params : Parameters ts ps dotted)
      (closing : c.isPunctuator ")" = true) : SignatureTokens (o :: (ts ++ c :: rest)) ps rest

/-- Tokens that start with a parameter list that has a comma behind its last parameter. -/
inductive CommaSignature : List Token → List Token → List Token → Prop
  | mk {o k c : Token} {ts ps rest : List Token} (opening : o.opensSignature = true)
      (params : Parameters ts ps false) (comma : k.isPunctuator "," = true)
      (closing : c.isPunctuator ")" = true) : CommaSignature (o :: (ts ++ k :: c :: rest)) ps rest

/-- The definition of `name` by the tokens behind it is read by the grammar: with the parameters of
the list that they start with, if there is one, and otherwise without parameters. -/
structure ReadsByGrammar (name : Token) (ts : List Token) : Prop where
  listed (ps rest : List Token) : readDefinition (name :: ts) = .ok ((name, some ps), rest) ↔
    SignatureTokens ts ps rest
  unlisted (none : ¬∃ ps rest, SignatureTokens ts ps rest) :
    readDefinition (name :: ts) = .ok ((name, Option.none), ts)

/-! ## Reading parameters -/

/-- Before a parenthesis that closes there is no parameter. -/
theorem readParams_close {c : Token} (hc : c.isPunctuator ")" = true) (rest : List Token) :
    readParams (c :: rest) = ([], c :: rest) := by
  have hname : c.isName = false := by
    rw [← Bool.not_eq_true]
    intro h
    rw [Token.isPunctuator_of_isName h] at hc
    cases hc
  rw [readParams.eq_def]
  simp [Token.isPunctuator_of_ne hc, hname]

namespace Parameter

variable {ts : List Token} {p : Token} {dotted : Bool}

/-- A parameter before a parenthesis that closes is the last. -/
theorem readParams_close (h : Parameter ts p dotted) {c : Token} (hc : c.isPunctuator ")" = true)
    (rest : List Token) : readParams (ts ++ c :: rest) = ([p], c :: rest) := by
  cases h with
  | name name =>
    simp [readParams, name, Token.isPunctuator_of_isName name, Token.isPunctuator_of_ne hc]
  | namedDots name dots => simp [readParams, name, dots, Token.isPunctuator_of_isName name]
  | dots dots =>
    rw [List.singleton_append, readParams.eq_def]
    simp [dots]

/-- Behind a comma, reading starts over. -/
theorem readParams_comma (h : Parameter ts p false) {k : Token} (hk : k.isPunctuator "," = true)
    (rest : List Token) :
    readParams (ts ++ k :: rest) = (p :: (readParams rest).1, (readParams rest).2) := by
  cases h with
  | name name =>
    simp [readParams, name, hk, Token.isPunctuator_of_isName name, Token.isPunctuator_of_ne hk]

/-- A parameter holds no mark that separates or closes. -/
private theorem isPunctuator_of_mem (h : Parameter ts p dotted) {t : Token} (ht : t ∈ ts)
    {value : String} (hvalue : "..." ≠ value) : t.isPunctuator value = false := by
  cases h with
  | name name => exact List.mem_singleton.1 ht ▸ Token.isPunctuator_of_isName name value
  | namedDots name dots =>
    rcases List.mem_cons.1 ht with rfl | hd
    · exact Token.isPunctuator_of_isName name value
    · exact List.mem_singleton.1 hd ▸ Token.isPunctuator_of_ne dots hvalue
  | dots dots => exact List.mem_singleton.1 ht ▸ Token.isPunctuator_of_ne dots hvalue

/-- A parameter has tokens. -/
theorem ne_nil (h : Parameter ts p dotted) : ts ≠ [] := by
  cases h with
  | name => exact List.cons_ne_nil _ _
  | namedDots => exact List.cons_ne_nil _ _
  | dots => exact List.cons_ne_nil _ _

end Parameter

namespace Parameters

variable {ts ps : List Token} {dotted : Bool}

/-- Parameters are read up to the parenthesis behind them. -/
theorem readParams_close (h : Parameters ts ps dotted) {c : Token}
    (hc : c.isPunctuator ")" = true) (rest : List Token) :
    readParams (ts ++ c :: rest) = (ps, c :: rest) := by
  induction h with
  | last param => exact param.readParams_close hc rest
  | more param comma _ ih =>
    rw [List.append_assoc, List.cons_append, param.readParams_comma comma, ih]

/-- Of a comma behind the last parameter nothing is left. -/
theorem readParams_comma (h : Parameters ts ps false) {k c : Token}
    (hk : k.isPunctuator "," = true) (hc : c.isPunctuator ")" = true) (rest : List Token) :
    readParams (ts ++ k :: c :: rest) = (ps, c :: rest) := by
  -- The flag is that of the last parameter all along.
  generalize hdotted : false = dotted at h
  induction h with
  | last param =>
    subst hdotted
    rw [param.readParams_comma hk, Preproc.readParams_close hc]
  | more param comma _ ih =>
    rw [List.append_assoc, List.cons_append, param.readParams_comma comma, ih hdotted]

/-- Parameters have tokens. -/
theorem ne_nil (h : Parameters ts ps dotted) : ts ≠ [] := by
  cases h with
  | last param => exact param.ne_nil
  | more => exact List.append_ne_nil_of_right_ne_nil _ (List.cons_ne_nil _ _)

/-- The first parenthesis that closes is the one behind the parameters. -/
private theorem isPunctuator_of_mem (h : Parameters ts ps dotted) {t : Token} (ht : t ∈ ts) :
    t.isPunctuator ")" = false := by
  induction h with
  | last param => exact param.isPunctuator_of_mem ht (by decide)
  | more param comma _ ih =>
    rcases List.mem_append.1 ht with hparam | hrest
    · exact param.isPunctuator_of_mem hparam (by decide)
    · rcases List.mem_cons.1 hrest with rfl | hrest
      · exact Token.isPunctuator_of_ne comma (by decide)
      · exact ih hrest

/-- Behind every comma stands a parameter. -/
private theorem isPunctuator_of_getLast? (h : Parameters ts ps dotted) {t : Token}
    (ht : ts.getLast? = some t) : t.isPunctuator "," = false := by
  induction h with
  | last param => exact param.isPunctuator_of_mem (List.mem_of_getLast? ht) (by decide)
  | more param comma rest ih =>
    -- The last token is one of what follows the comma, since that is not empty.
    rw [List.append_cons, List.getLast?_append_of_ne_nil _ rest.ne_nil] at ht
    exact ih ht

end Parameters

/-- Reading parameters gives none and takes nothing, or takes the tokens of the parameters that it
gives, with or without a comma behind them. -/
theorem readParams_cases (ts : List Token) :
    readParams ts = ([], ts) ∨
    (∃ us dotted, ts = us ++ (readParams ts).2 ∧ Parameters us (readParams ts).1 dotted) ∨
    ∃ us k, ts = us ++ k :: (readParams ts).2 ∧ Parameters us (readParams ts).1 false ∧
      k.isPunctuator "," = true := by
  -- A comma is taken with the name before it, whatever is found behind.
  fun_induction readParams ts with
  | case1 => exact .inl rfl
  | case2 t rest dots => exact .inr (.inl ⟨[t], true, rfl, .last (.dots dots)⟩)
  | case3 t _ name => exact .inr (.inl ⟨[t], false, rfl, .last (.name name)⟩)
  | case4 t _ name d more dots =>
    exact .inr (.inl ⟨[t, d], true, rfl, .last (.namedDots name dots)⟩)
  | case5 t _ name d more _ comma ps last hread ih =>
    rw [hread] at ih
    rcases ih with hnone | ⟨us, dotted, hmore, hps⟩ | ⟨us, k, hmore, hps, hk⟩
    · -- No parameter follows, so this is the comma behind the last one.
      obtain ⟨rfl, rfl⟩ := Prod.mk.inj hnone
      exact .inr (.inr ⟨[t], d, rfl, .last (.name name), comma⟩)
    · exact .inr (.inl ⟨t :: d :: us, dotted, by rw [hmore]; rfl, .more (.name name) comma hps⟩)
    · exact .inr (.inr ⟨t :: d :: us, k, by rw [hmore]; rfl, .more (.name name) comma hps, hk⟩)
  | case6 t _ name d more => exact .inr (.inl ⟨[t], false, rfl, .last (.name name)⟩)
  | case7 => exact .inl rfl

/-! ## Reading parameter lists -/

/-- Parameters between parentheses are a parameter list. -/
private theorem readSignature?_of_readParams {o c : Token} {ts ps rest : List Token}
    (ho : o.opensSignature = true) (hread : readParams ts = (ps, c :: rest))
    (hc : c.isPunctuator ")" = true) : readSignature? (o :: ts) = some (ps, rest) := by
  have hopens : (o.isPunctuator "(" && !o.prevWhite) = true := ho
  rw [readSignature?, if_pos hopens, hread]
  exact if_pos hc

/-- A parameter list consists of parameters between parentheses. -/
private theorem exists_of_readSignature? {ts ps rest : List Token}
    (h : readSignature? ts = some (ps, rest)) :
    ∃ o us c, ts = o :: us ∧ o.opensSignature = true ∧ readParams us = (ps, c :: rest) ∧
      c.isPunctuator ")" = true := by
  unfold readSignature? at h
  split at h
  · cases h
  · rename_i o us
    split at h
    · rename_i opening
      split at h
      · rename_i ps' c rest' hread
        split at h
        · rename_i closing
          obtain ⟨rfl, rfl⟩ := Prod.mk.inj (Option.some.inj h)
          -- This is the only way to the end that gives a result.
          exact ⟨o, us, c, rfl, opening, hread, closing⟩
        · cases h
      · cases h
    · cases h

/-- A parameter list of the grammar is read. -/
theorem SignatureTokens.readSignature?_eq {ts ps rest : List Token}
    (h : SignatureTokens ts ps rest) : readSignature? ts = some (ps, rest) := by
  cases h with
  | empty opening closing =>
    exact readSignature?_of_readParams opening (readParams_close closing _) closing
  | params opening params closing =>
    exact readSignature?_of_readParams opening (params.readParams_close closing _) closing

/-- A parameter list with a comma behind its last parameter is read like one without it. -/
theorem CommaSignature.readSignature?_eq {ts ps rest : List Token}
    (h : CommaSignature ts ps rest) : readSignature? ts = some (ps, rest) := by
  obtain ⟨opening, params, comma, closing⟩ := h
  exact readSignature?_of_readParams opening (params.readParams_comma comma closing _) closing

/-- The parameter lists that are read are those of the grammar, and those with a comma behind the
last parameter. -/
theorem readSignature?_eq_some_iff {ts ps rest : List Token} :
    readSignature? ts = some (ps, rest) ↔
      SignatureTokens ts ps rest ∨ CommaSignature ts ps rest := by
  constructor
  · intro h
    obtain ⟨o, us, c, rfl, opening, hread, closing⟩ := exists_of_readSignature? h
    have hcases := readParams_cases us
    rw [hread] at hcases
    rcases hcases with hnone | ⟨params, dotted, rfl, hps⟩ | ⟨params, k, rfl, hps, comma⟩
    · -- Nothing was taken, so the parentheses are next to each other.
      obtain ⟨rfl, rfl⟩ := Prod.mk.inj hnone
      exact .inl (.empty opening closing)
    · exact .inl (.params opening hps closing)
    · exact .inr (.mk opening hps comma closing)
  · rintro (h | h)
    · exact h.readSignature?_eq
    · exact h.readSignature?_eq

/-- The token before the first parenthesis that closes. -/
def lastInside? (ts : List Token) : Option Token :=
  (ts.tail.takeWhile (!·.isPunctuator ")")).getLast?

/-- The last token inside is the last one before the parenthesis that closes. -/
theorem lastInside?_eq {o c : Token} {ts : List Token} (rest : List Token)
    (h : ∀ t ∈ ts, t.isPunctuator ")" = false) (hc : c.isPunctuator ")" = true) :
    lastInside? (o :: (ts ++ c :: rest)) = ts.getLast? := by
  have hts : ∀ t ∈ ts, (!t.isPunctuator ")") = true := fun t ht => by rw [h t ht]; rfl
  rw [lastInside?, List.tail_cons, List.takeWhile_append_of_pos hts, List.takeWhile_cons, hc]
  simp

/-- In a parameter list of the grammar this is no comma. -/
private theorem SignatureTokens.isPunctuator_lastInside? {ts ps rest : List Token}
    (h : SignatureTokens ts ps rest) {t : Token} (ht : lastInside? ts = some t) :
    t.isPunctuator "," = false := by
  cases h with
  -- Nothing stands inside.
  | @empty o c _ opening closing =>
    have hnone : lastInside? (o :: ([] ++ c :: rest)) = none :=
      lastInside?_eq rest (by simp) closing
    rw [List.nil_append] at hnone
    rw [hnone] at ht
    cases ht
  | params opening params closing =>
    rw [lastInside?_eq rest (fun t => params.isPunctuator_of_mem) closing] at ht
    exact params.isPunctuator_of_getLast? ht

/-- No list of tokens is both: before the parenthesis that closes stands a comma, or none. -/
private theorem CommaSignature.not_signatureTokens {ts ps rest ps' rest' : List Token}
    (h : CommaSignature ts ps rest) : ¬SignatureTokens ts ps' rest' := by
  intro hsignature
  obtain @⟨o, k, c, us, _, _, opening, params, comma, closing⟩ := h
  -- All tokens before the last comma are inside, and none of them closes.
  have hinside : ∀ t ∈ us ++ [k], t.isPunctuator ")" = false := by
    intro t ht
    rcases List.mem_append.1 ht with hus | hk
    · exact params.isPunctuator_of_mem hus
    · exact List.mem_singleton.1 hk ▸ Token.isPunctuator_of_ne comma (by decide)
  have hlast := lastInside?_eq (o := o) rest hinside closing
  rw [← List.append_cons, List.getLast?_concat] at hlast
  rw [hsignature.isPunctuator_lastInside? hlast] at comma
  cases comma

/-! ## Definitions -/

section Definitions

variable {name : Token} (hname : name.isName = true) {ts : List Token}
include hname

/-- A definition has parameters just if a parameter list is read behind its name. -/
theorem readDefinition_some_iff {ps rest : List Token} :
    readDefinition (name :: ts) = .ok ((name, some ps), rest) ↔
      SignatureTokens ts ps rest ∨ CommaSignature ts ps rest := by
  rw [← readSignature?_eq_some_iff, readDefinition, if_pos hname]
  cases readSignature? ts with
  | none => simp
  | some r => simp [Prod.ext_iff]

/-- Without a parameter list, all tokens behind the name are the body. -/
private theorem readDefinition_of_none
    (h : ¬∃ ps rest, SignatureTokens ts ps rest ∨ CommaSignature ts ps rest) :
    readDefinition (name :: ts) = .ok ((name, none), ts) := by
  have hnone : readSignature? ts = none := by
    cases hread : readSignature? ts with
    | none => rfl
    | some r => exact absurd ⟨r.1, r.2, readSignature?_eq_some_iff.1 hread⟩ h
  rw [readDefinition, if_pos hname, hnone]

/-- A parameter list with a comma behind its last parameter is read against the grammar. -/
private theorem CommaSignature.not_readsByGrammar {ps rest : List Token}
    (h : CommaSignature ts ps rest) : ¬ReadsByGrammar name ts := by
  intro hgrammar
  exact h.not_signatureTokens
    ((hgrammar.listed ps rest).1 ((readDefinition_some_iff hname).2 (.inr h)))

end Definitions

/-- A definition is read by the grammar of parameter lists exactly if there is no comma behind the
last parameter. With such a comma it has the parameters before it; and what starts with no parameter
list at all is the body. -/
theorem definition_grammar {name : Token} (hname : name.isName = true) (ts : List Token) :
    (ReadsByGrammar name ts ↔ ¬∃ ps rest, CommaSignature ts ps rest) ∧
    (∀ ps rest, readDefinition (name :: ts) = .ok ((name, some ps), rest) ↔
      SignatureTokens ts ps rest ∨ CommaSignature ts ps rest) ∧
    ((¬∃ ps rest, SignatureTokens ts ps rest ∨ CommaSignature ts ps rest) →
      readDefinition (name :: ts) = .ok ((name, none), ts)) := by
  refine ⟨⟨?_, ?_⟩, fun ps rest => readDefinition_some_iff hname, readDefinition_of_none hname⟩
  · rintro hgrammar ⟨ps, rest, hcomma⟩
    exact hcomma.not_readsByGrammar hname hgrammar
  · intro hnone
    -- What is read is then what the grammar has.
    have hsome : ∀ ps rest, SignatureTokens ts ps rest ∨ CommaSignature ts ps rest ↔
        SignatureTokens ts ps rest :=
      fun ps rest => or_iff_left fun hcomma => hnone ⟨ps, rest, hcomma⟩
    refine ⟨fun ps rest => (readDefinition_some_iff hname).trans (hsome ps rest), fun h => ?_⟩
    refine readDefinition_of_none hname ?_
    simpa only [hsome] using h

open Token in
/-- The tokens of `f(a, b...) x`. -/
theorem definition_grammar_variadic :
    let ts := [sign "(", word "a", sign ",", word "b", sign "...", sign ")", word "x"]
    ReadsByGrammar (word "f") ts ∧
    readDefinition (word "f" :: ts) =
      .ok ((word "f", some [word "a", word "b..."]), [word "x"]) := by
  intro ts
  -- The parameters as the grammar has them.
  have hparams :
      Parameters [word "a", sign ",", word "b", sign "..."] [word "a", word "b..."] true :=
    .more (.name rfl) rfl (.last (.namedDots rfl rfl))
  have hsignature : SignatureTokens ts [word "a", word "b..."] [word "x"] :=
    .params rfl hparams rfl
  obtain ⟨hgrammar, hsome, -⟩ := @definition_grammar (word "f") rfl ts
  refine ⟨hgrammar.2 ?_, (hsome _ _).2 (.inl hsignature)⟩
  rintro ⟨ps, rest, hcomma⟩
  exact hcomma.not_signatureTokens hsignature

open Token in
/-- The tokens of `f(a,) x`, in which no parameter follows the comma. -/
theorem not_readsByGrammar_comma :
    let ts := [sign "(", word "a", sign ",", sign ")", word "x"]
    (¬∃ ps rest, SignatureTokens ts ps rest) ∧
    readDefinition (word "f" :: ts) = .ok ((word "f", some [word "a"]), [word "x"]) ∧
    ¬ReadsByGrammar (word "f") ts := by
  intro ts
  have hparams : Parameters [word "a"] [word "a"] false := .last (.name rfl)
  -- The list is read with its last comma.
  have hcomma : CommaSignature ts [word "a"] [word "x"] := .mk rfl hparams rfl rfl
  refine ⟨?_, (readDefinition_some_iff rfl).2 (.inr hcomma), hcomma.not_readsByGrammar rfl⟩
  rintro ⟨ps, rest, hsignature⟩
  exact hcomma.not_signatureTokens hsignature

end Preproc
