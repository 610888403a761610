import Preproc.Proofs.Lexing.Phrases
import Preproc.Proofs.Lexing.Relexing
import Preproc.Proofs.Macro.DefinitionForms
import Preproc.Proofs.Macro.Renormalizing
import Preproc.Proofs.Preprocessor.Definitions

/-!
# The spelling of a macro

The spelling of a macro is a definition: its header, without white space, and the tokens of its
replacement list with a space before each. Reading it gives the macro back. The header is read as a
header, for its parameters are those of one that was read; the tokens are read one by one, for each
of them was read from some text; and normalizing the list of them again changes nothing.

## Key results

- `Signature.ofSpellings_spellings`: a signature that was read is that of its spellings
- `Macro.defined_ofText`: what is known of a macro that was read
- `Macro.Defined.toList_spelling`: a spelling is a header and a phrase
- `Macro.Defined.reads_spelling`: the tokens of a spelling are those of the macro
- `Macro.ofText_spelling`: the spelling of a macro reads back as the macro
-/

namespace Preproc

/-! ## Parameters -/

namespace Signature

/-- The parameters of a signature that was read: names, and one at least if it is variadic. -/
structure Named (sig : Signature) : Prop where
  params : ∀ p ∈ sig.params, NameText p.toList
  last : sig.variadic = true → sig.params ≠ []

/-- Only the last parameter tells whether the macro is variadic. -/
private theorem ofSpellings_concat (ps : List String) (p : String) :
    ofSpellings (ps ++ [p]) = ⟨ps ++ (ofSpellings [p]).params, (ofSpellings [p]).variadic⟩ := by
  simp only [ofSpellings, List.getLast?_concat, List.dropLast_concat, List.getLast?_singleton,
    List.dropLast_singleton, List.nil_append]
  split
  · rfl
  · split <;> rfl

/-- A parameter before others is just a name. -/
theorem ofSpellings_cons {ps : List String} (h : ps ≠ []) (p : String) :
    ofSpellings (p :: ps) = ⟨p :: (ofSpellings ps).params, (ofSpellings ps).variadic⟩ := by
  obtain rfl | ⟨init, last, rfl⟩ := List.eq_nil_or_concat' ps
  · exact absurd rfl h
  · rw [← List.cons_append, ofSpellings_concat, ofSpellings_concat, List.cons_append]

/-- There is no period in a name. -/
private theorem point_notMem {cs : List Char} (h : NameText cs) : '.' ∉ cs := by
  intro hmem
  have hpoint := h.chars _ hmem
  revert hpoint
  decide

/-- A name is a parameter. -/
private theorem ofSpellings_name {p : String} (h : NameText p.toList) :
    ofSpellings [p] = ⟨[p], false⟩ := by
  have hdots : ¬['.', '.', '.'] <:+ p.toList := fun hsuffix =>
    point_notMem h (hsuffix.subset (by simp))
  have hplain : p ≠ "..." := by
    rintro rfl
    exact hdots (by decide)
  simp [ofSpellings, hplain, hdots]

private theorem ofSpellings_dots : ofSpellings ["..."] = ⟨[variableArguments], true⟩ := rfl

/-- A name with dots is a parameter that takes all further arguments. -/
private theorem ofSpellings_namedDots {p : String} (h : NameText p.toList) :
    ofSpellings [p ++ "..."] = ⟨[p], true⟩ := by
  -- A name has a character, so this is not the spelling without one.
  have hname : p ++ "..." ≠ "..." := by
    intro heq
    have hlist := congrArg String.toList heq
    rw [String.toList_append] at hlist
    exact h.solid (by simpa using hlist)
  have hsuffix : ['.', '.', '.'].isSuffixOf (p ++ "...").toList = true := by
    rw [List.isSuffixOf_iff_suffix, String.toList_append]
    exact List.suffix_append p.toList _
  have htake : (p ++ "...").toList.take ((p ++ "...").length - 3) = p.toList := by
    rw [String.toList_append, String.length_append, ← String.length_toList]
    exact List.take_left
  simp only [ofSpellings, List.getLast?_singleton, if_neg hname, hsuffix, if_true, htake,
    List.dropLast_singleton, List.nil_append, String.ofList_toList]

/-- A signature that was read is that of its spellings. -/
theorem ofSpellings_spellings {sig : Signature} (h : sig.Named) :
    ofSpellings sig.spellings = sig := by
  obtain ⟨params, variadic⟩ := sig
  -- Only the last parameter is spelled with dots, so the list is split there.
  obtain rfl | ⟨init, last, rfl⟩ := List.eq_nil_or_concat' params
  · cases variadic with
    | false => rfl
    | true => exact absurd rfl (h.last rfl)
  · have hlast := h.params last (by simp)
    cases variadic with
    | false =>
      show ofSpellings (init ++ [last]) = _
      rw [ofSpellings_concat, ofSpellings_name hlast]
    | true =>
      simp only [spellings, if_true, List.getLast?_concat, List.dropLast_concat]
      rw [ofSpellings_concat]
      split
      · rename_i hunnamed
        rw [ofSpellings_dots, hunnamed]
      · rw [ofSpellings_namedDots hlast]

/-- The text of a list of parameters, up to the closing parenthesis. -/
def paramText (ps : List String) : List Char :=
  (",".intercalate ps).toList ++ [')']

/-- A comma stands between two parameters. -/
theorem paramText_cons {ps : List String} (h : ps ≠ []) (p : String) :
    paramText (p :: ps) = p.toList ++ ([','] ++ paramText ps) := by
  obtain ⟨q, ps, rfl⟩ := List.exists_cons_of_ne_nil h
  simp [paramText, String.toList_intercalate]

/-- Names before a text of one parameter make a text of more. -/
private theorem paramText_concat {ps : List String} {p : String} (hps : ∀ p ∈ ps, NameText p.toList)
    (h : ParamText (paramText [p]) [p]) : ParamText (paramText (ps ++ [p])) (ps ++ [p]) := by
  induction ps with
  | nil => exact h
  | cons q ps ih =>
    obtain ⟨hq, hps⟩ := List.forall_mem_cons.1 hps
    rw [List.cons_append, paramText_cons (by simp)]
    have hmore := ParamText.more .none .none hq (ih hps)
    rwa [String.ofList_toList] at hmore

/-- The spellings of parameters that were read are a parameter list. -/
private theorem paramText_spellings {sig : Signature} (h : sig.Named) :
    ParamText (paramText sig.spellings) sig.spellings := by
  obtain ⟨params, variadic⟩ := sig
  obtain rfl | ⟨init, last, rfl⟩ := List.eq_nil_or_concat' params
  · -- Without parameters there is nothing that could be variable.
    cases variadic with
    | false => exact ParamText.close .none
    | true => exact absurd rfl (h.last rfl)
  · -- Only the last parameter may have dots, with or without a name before them.
    have hinit : ∀ p ∈ init, NameText p.toList := fun p hp => h.params p (by simp [hp])
    have hlast := h.params last (by simp)
    cases variadic with
    | false =>
      apply paramText_concat hinit
      have hname := ParamText.last .none .none hlast
      rw [String.ofList_toList] at hname
      simpa [paramText, String.toList_intercalate, Spacing.text, Spacing.none] using hname
    | true =>
      simp only [spellings, if_true, List.getLast?_concat, List.dropLast_concat]
      apply paramText_concat hinit
      split
      · exact ParamText.dots .none .none
      · have hname := ParamText.namedDots .none .none .none hlast
        rw [String.ofList_toList] at hname
        simpa [paramText, String.toList_intercalate, Spacing.text, Spacing.none] using hname

end Signature

/-! ## What was read -/

/-- Identifiers and keywords are names. -/
private theorem Spelled.nameText {k : Kind} {cs : List Char} (h : Spelled k cs)
    (hk : k = .identifier ∨ k = .keyword) : NameText cs := by
  cases h with
  | name _ solid digit chars => exact ⟨solid, digit, chars⟩
  | number => simp at hk
  | fraction => simp at hk
  -- Literals are strings or characters.
  | literal kind =>
    subst kind
    unfold quoteKind at hk
    split at hk <;> simp at hk
  | punctuator => simp at hk

/-- Names are read from texts of names. -/
private theorem Token.Sound.nameText {t : Token} (h : t.Sound) (hname : t.isName = true) :
    NameText t.value.toList := by
  have hkind : t.kind = .identifier ∨ t.kind = .keyword := by simpa [Token.isName] using hname
  apply (h.spelled _ _).1.nameText hkind
  · rcases hkind with hkind | hkind <;> simp [hkind]
  · rcases hkind with hkind | hkind <;> simp [hkind]

/-- The parameters that are read are names. -/
private theorem named_readParams {ts : List Token} (h : AllSound ts) :
    (Signature.ofSpellings ((readParams ts).1.map (·.value))).Named := by
  have hsingle : ∀ {p : String} (variadic : Bool), NameText p.toList →
      (⟨[p], variadic⟩ : Signature).Named := by
    intro p variadic hp
    exact ⟨by simpa using hp, by simp⟩
  -- Only the parameter read last can be variadic, so what holds of the rest carries over.
  fun_induction readParams ts with
  | case1 => exact ⟨by simp [Signature.ofSpellings], by simp [Signature.ofSpellings]⟩
  | case2 t rest ht => exact hsingle true (by decide)
  | case3 t ht hname =>
    have hp := (h t List.mem_cons_self).nameText hname
    show (Signature.ofSpellings [t.value]).Named
    rw [Signature.ofSpellings_name hp]
    exact hsingle false hp
  | case4 t ht hname d more hd =>
    have hp := (h t List.mem_cons_self).nameText hname
    show (Signature.ofSpellings [t.value ++ "..."]).Named
    rw [Signature.ofSpellings_namedDots hp]
    exact hsingle true hp
  -- A comma follows, and then a list of which the same is known.
  | case5 t ht hname d more hd hcomma ps last hmore ih =>
    have hp := (h t List.mem_cons_self).nameText hname
    have hrest := ih (h.subset fun u hu => by simp [hu])
    rw [hmore] at hrest
    show (Signature.ofSpellings (t.value :: ps.map (·.value))).Named
    by_cases hnil : ps.map (·.value) = []
    · rw [hnil, Signature.ofSpellings_name hp]
      exact hsingle false hp
    · rw [Signature.ofSpellings_cons hnil]
      exact ⟨List.forall_mem_cons.2 ⟨hp, hrest.params⟩, by simp⟩
  | case6 t ht hname d more hd hcomma =>
    have hp := (h t List.mem_cons_self).nameText hname
    show (Signature.ofSpellings [t.value]).Named
    rw [Signature.ofSpellings_name hp]
    exact hsingle false hp
  | case7 t rest ht hname =>
    exact ⟨by simp [Signature.ofSpellings], by simp [Signature.ofSpellings]⟩

/-- The parameters of a list that is read are names. -/
private theorem named_readSignature? {ts ps rest : List Token} (hts : AllSound ts)
    (h : readSignature? ts = some (ps, rest)) :
    (Signature.ofSpellings (ps.map (·.value))).Named := by
  cases ts with
  | nil => cases h
  | cons t ts =>
    have hnamed := named_readParams (allSound_cons.1 hts).2
    rw [readSignature?] at h
    split at h
    · split at h
      · -- The parameters have been read, and a parenthesis closes them.
        rename_i ps' u last hread
        rw [hread] at hnamed
        split at h
        · cases h
          exact hnamed
        · cases h
      · cases h
    · cases h

/-- The name and the parameters of a definition are names. -/
private theorem named_readDefinition {ts rest : List Token} {name : Token}
    {params : Option (List Token)} (hts : AllSound ts)
    (h : readDefinition ts = .ok ((name, params), rest)) :
    NameText name.value.toList ∧
      ∀ sig ∈ (params.map (·.map (·.value))).map Signature.ofSpellings, sig.Named := by
  cases ts with
  | nil => cases h
  | cons t ts =>
    obtain ⟨ht, hrest⟩ := allSound_cons.1 hts
    rw [readDefinition] at h
    split at h
    · rename_i hname
      split at h
      · -- A parenthesis follows at once, and the parameters are read.
        rename_i ps body hread
        cases h
        refine ⟨ht.nameText hname, fun sig hsig => ?_⟩
        obtain rfl := Option.some.inj hsig
        exact named_readSignature? hrest hread
      · cases h
        exact ⟨ht.nameText hname, by simp⟩
    · cases h

/-! ## The text of a spelling -/

namespace Signature

/-- The text of a parameter list holds its parameters, commas and the parenthesis. -/
private theorem mem_paramText {ps : List String} {c : Char} (h : c ∈ paramText ps) :
    (∃ p ∈ ps, c ∈ p.toList) ∨ c ∈ [',', ')'] := by
  induction ps with
  | nil =>
    have hclose : c ∈ [')'] := h
    exact .inr (List.mem_cons_of_mem _ hclose)
  | cons p ps ih =>
    -- The last parameter is followed by the parenthesis, the others by a comma.
    by_cases hps : ps = []
    · subst hps
      have hsingle : c ∈ p.toList ++ [')'] := by simpa [paramText] using h
      rcases List.mem_append.1 hsingle with hp | hclose
      · exact .inl ⟨p, List.mem_cons_self, hp⟩
      · exact .inr (List.mem_cons_of_mem _ hclose)
    · rw [paramText_cons hps, List.mem_append, List.mem_append] at h
      rcases h with hp | hcomma | hmore
      · exact .inl ⟨p, List.mem_cons_self, hp⟩
      · exact .inr (by simp [List.mem_singleton.1 hcomma])
      · rcases ih hmore with ⟨q, hq, hc⟩ | hmark
        · exact .inl ⟨q, List.mem_cons_of_mem p hq, hc⟩
        · exact .inr hmark

/-- Parameters are spelled by their names and periods. -/
private theorem mem_spellings {sig : Signature} {p : String} (h : p ∈ sig.spellings) {c : Char}
    (hc : c ∈ p.toList) : (∃ q ∈ sig.params, c ∈ q.toList) ∨ c = '.' := by
  unfold spellings at h
  split at h
  · split at h
    · exact .inl ⟨p, h, hc⟩
    · rename_i last hlast
      rcases List.mem_append.1 h with hinit | hdots
      · exact .inl ⟨p, List.dropLast_subset _ hinit, hc⟩
      · -- The last spelling has dots, which may stand alone.
        rw [List.mem_singleton.1 hdots] at hc
        split at hc
        · exact .inr (by simpa using hc)
        · rw [String.toList_append, List.mem_append] at hc
          rcases hc with hname | hpoint
          · exact .inl ⟨last, List.mem_of_getLast? hlast, hname⟩
          · exact .inr (by simpa using hpoint)
  · exact .inl ⟨p, h, hc⟩

end Signature

/-- Names end firmly. -/
theorem NameText.endsFirmly {cs : List Char} (h : NameText cs) : EndsFirmly cs :=
  (Spelled.name rfl h.solid h.digit h.chars).endsFirmly

/-- The tokens with spaces between them make the phrase but for its first space. -/
private theorem phrase_eq_intercalate {ts : List Token} (h : ts ≠ []) :
    phrase ts = ' ' :: (" ".intercalate (ts.map (·.value))).toList := by
  induction ts with
  | nil => exact absurd rfl h
  | cons t ts ih =>
    cases ts with
    | nil => simp [phrase]
    | cons u us =>
      rw [phrase_cons, ih (by simp)]
      simp [String.toList_intercalate]

namespace Macro

/-- The header of a macro, without white space. -/
def headerText (m : Macro) : List Char :=
  m.name.toList ++ m.signature?.elim [] fun sig => ['('] ++ Signature.paramText sig.spellings

/-- What is known of a macro whose definition was read. -/
structure Defined (m : Macro) : Prop where
  name : NameText m.name.toList
  signature : ∀ sig ∈ m.signature?, sig.Named
  body : ∀ t ∈ m.body, t.Read
  user : ∀ name value, m ≠ .builtin name value

/-- What is known of a macro that is defined by a text. -/
theorem defined_ofText {text : String} {m : Macro} (h : (Macro.ofText text).value = .ok m) :
    m.Defined := by
  obtain ⟨name, params, rest, hread, rfl⟩ := Macro.exists_of_ofText h
  have hnamed := named_readDefinition (allSound_lexText _ _) hread
  constructor
  · rw [Macro.name_ofDefinition]
    exact hnamed.1
  · rw [Macro.signature?_ofDefinition]
    exact hnamed.2
  · intro t ht
    -- A token of the list was written or is made by pasting, and is read either way.
    rcases Macro.exists_of_mem_ofDefinition ht with ⟨u, hu, hface⟩ | hmade
    · have hwritten := subset_of_readDefinition hread (dropEquals_subset rest hu)
      exact (Token.read_of_mem_lexText hwritten).of_face hface
    · exact hmade
  · intro n value
    cases params <;> simp [Macro.ofDefinition, Macro.ofBody, Macro.ofFunction]

namespace Defined

variable {m : Macro} (h : m.Defined)

include h

/-- The header of a macro is one. -/
theorem header : Header m.headerText m.name (m.signature?.map (·.spellings)) := by
  rw [headerText]
  cases hsig : m.signature? with
  | none =>
    have hobject := Header.object h.name
    rw [String.ofList_toList] at hobject
    simpa using hobject
  | some sig =>
    have hfunction := Header.function h.name (Signature.paramText_spellings (h.signature sig hsig))
    rw [String.ofList_toList] at hfunction
    exact hfunction

/-- Headers end firmly, with a name or a parenthesis. -/
private theorem endsFirmly_headerText : EndsFirmly m.headerText := by
  rw [headerText]
  apply h.name.endsFirmly.append
  cases m.signature? with
  | none => rfl
  | some sig =>
    have hclose : EndsFirmly (Signature.paramText sig.spellings) := by
      rw [EndsFirmly, Signature.paramText, List.getLast?_concat]
      decide
    exact EndsFirmly.append (by rw [EndsFirmly]; decide) hclose

/-- Names and punctuators make up a header. -/
private theorem mem_headerText {c : Char} (hc : c ∈ m.headerText) :
    isNameChar c = true ∨ c ∈ ['(', ',', '.', ')'] := by
  rw [headerText, List.mem_append] at hc
  rcases hc with hname | hparams
  · exact .inl (h.name.chars c hname)
  · cases hsig : m.signature? with
    | none =>
      rw [hsig] at hparams
      cases hparams
    | some sig =>
      rw [hsig] at hparams
      rcases List.mem_append.1 hparams with hopen | hrest
      · exact .inr (by simp [List.mem_singleton.1 hopen])
      · -- Behind the parenthesis there are parameters, dots, and the punctuators between them.
        rcases Signature.mem_paramText hrest with ⟨p, hp, hcp⟩ | hmark
        · rcases Signature.mem_spellings hp hcp with ⟨q, hq, hcq⟩ | rfl
          · exact .inl (((h.signature sig hsig).params q hq).chars c hcq)
          · exact .inr (by decide)
        · rcases List.mem_pair.1 hmark with rfl | rfl <;> exact .inr (by decide)

variable (hplain : ∀ t ∈ m.body, t.isPlain = true)

include hplain

private theorem spelled_body : ∀ t ∈ m.body, Spelled t.kind t.value.toList :=
  fun t ht => (h.body t ht).spelled (hplain t ht)

/-- A spelling is a header and a phrase. -/
theorem toList_spelling : m.spelling.toList = m.headerText ++ phrase m.body := by
  -- Both kinds of macros are written as a header, a space and the tokens with spaces between them.
  have htext : m.spelling.toList = Text.dropTrailingBlanks
      (m.headerText ++ ' ' :: (" ".intercalate (m.body.map (·.value))).toList) := by
    cases m with
    | object name body => simp [spelling, headerText, Macro.name, signature?]
    | function name sig plain body =>
      simp [spelling, headerText, Macro.name, signature?, Signature.paramText]
    | builtin name value => exact absurd rfl (h.user name value)
  rw [htext]
  by_cases hbody : m.body = []
  · -- The space behind the header is not followed by anything, and is dropped.
    rw [hbody]
    exact (dropTrailingBlanks_space _).trans
      (h.endsFirmly_headerText.dropTrailingBlanks.trans (List.append_nil _).symm)
  · rw [← phrase_eq_intercalate hbody]
    apply EndsFirmly.dropTrailingBlanks
    exact h.endsFirmly_headerText.append (endsFirmly_phrase (h.spelled_body hplain))

/-- A spelling is one line, and nothing in it is spliced. -/
private theorem logicalText_spelling :
    logicalText m.spelling.toList = m.headerText ++ phrase m.body := by
  have hline : ∀ c ∈ ['\r', '\n'], c ∉ m.headerText ++ phrase m.body := by
    intro c hc hmem
    -- A line ending is no part of a name, of a sign or of a space.
    have hstrange : ¬(isNameChar c = true ∨ c ∈ ['(', ',', '.', ')']) ∧ c ≠ ' ' := by
      rcases List.mem_pair.1 hc with rfl | rfl <;> decide
    rcases List.mem_append.1 hmem with hheader | hbody
    · exact hstrange.1 (h.mem_headerText hheader)
    · rcases mem_phrase hbody with hspace | ⟨t, ht, hvalue⟩
      · exact hstrange.2 hspace
      · exact (h.body t ht).break_notMem (hplain t ht) hc hvalue
  rw [h.toList_spelling hplain]
  apply EndsFirmly.logicalText
  · exact h.endsFirmly_headerText.append (endsFirmly_phrase (h.spelled_body hplain))
  · exact hline '\r' (by simp)
  · exact hline '\n' (by simp)

/-- The tokens of a spelling are those of the macro, each behind a space. -/
theorem reads_spelling :
    ∃ m', (Macro.ofText m.spelling).value = .ok m' ∧
      m'.unplaced = (Macro.ofDefinition m.name (m.signature?.map (·.spellings))
        (m.body.map fun t => reading t.kind t.value.toList true false)).value := by
  have hends : endsName (phrase m.body) = true := by
    cases m.body <;> rfl
  have htokens : bodyTokens false (phrase m.body) =
      m.body.map fun t => reading t.kind t.value.toList true false := by
    obtain ⟨white, hread⟩ := readings_phrase (h.spelled_body hplain) false
    rw [bodyTokens, hread, List.dropLast_concat]
  -- White space stands before the first token, so a parenthesis or an equals sign is part of the
  -- body.
  have hopens : opensNothing (bodyTokens false (phrase m.body)) = true := by
    rw [htokens]
    cases m.body <;> simp [opensNothing, reading]
  have hequals :
      dropEquals (bodyTokens false (phrase m.body)) = bodyTokens false (phrase m.body) := by
    rw [htokens]
    cases m.body <;> simp [dropEquals, reading]
  have hread := h.header.ofText hends hopens (h.logicalText_spelling hplain)
  rwa [hequals, htokens] at hread

end Defined

/-! ## Reading a spelling -/

/-- Two macros of one class, with one name and the same parameters, whose replacement lists have the
same kinds and values. -/
inductive Alike : Macro → Macro → Prop
  | object {name : String} {body body' : List Token}
      (faces : body'.map Token.face = body.map Token.face) :
      Alike (.object name body') (.object name body)
  | function {name : String} {sig : Signature} {plain plain' : List Bool} {body body' : List Token}
      (faces : body'.map Token.face = body.map Token.face) :
      Alike (.function name sig plain' body') (.function name sig plain body)

/-- Macros that were read are alike if their names, parameters and replacement lists are. -/
theorem Defined.alike {m' m : Macro} (h' : m'.Defined) (h : m.Defined) (hname : m'.name = m.name)
    (hsig : m'.signature? = m.signature?)
    (hfaces : m'.body.map Token.face = m.body.map Token.face) : Alike m' m := by
  cases m' with
  -- The kinds agree, since only a function-like macro has a signature.
  | object name' body' =>
    cases m with
    | object name body =>
      obtain rfl : name' = name := hname
      exact .object hfaces
    | function => cases hsig
    | builtin name value => exact absurd rfl (h.user name value)
  | function name' sig' plain' body' =>
    cases m with
    | object => cases hsig
    | function name sig plain body =>
      obtain rfl : name' = name := hname
      obtain rfl : sig' = sig := Option.some.inj hsig
      exact .function hfaces
    | builtin name value => exact absurd rfl (h.user name value)
  | builtin name value => exact absurd rfl (h'.user name value)

/-- The tokens that are made by pasting while `text` is read as a definition. -/
def madeIn (text : String) : List Token :=
  (readDefinition (lexText "<command line>" text.toList).value.all.value).toOption.elim []
    fun read =>
      madeConstants ((read.1.2.map (·.map (·.value))).map Signature.ofSpellings) []
        (trimmedBody read.1.1.value (dropEquals read.2)).value

/-- The parameters of a macro that was read are those of their spellings. -/
private theorem Defined.ofSpellings_signature? {m : Macro} (h : m.Defined) :
    (m.signature?.map (·.spellings)).map Signature.ofSpellings = m.signature? := by
  cases hsig : m.signature? with
  | none => rfl
  | some sig => exact congrArg some (Signature.ofSpellings_spellings (h.signature sig hsig))

/-- A replacement list in normal form is its own normal form, unless pasting made a pasting
operator. -/
private theorem body_ofDefinition_body {text : String} {m : Macro}
    (h : (Macro.ofText text).value = .ok m) (hmade : ∀ t ∈ madeIn text, t.isPaste = false) :
    (Macro.ofDefinition m.name (m.signature?.map (·.spellings)) m.body).value.body = m.body := by
  have hparams := (defined_ofText h).ofSpellings_signature?
  obtain ⟨name, params, rest, hread, rfl⟩ := exists_of_ofText h
  apply body_ofDefinition_again
  · rwa [signature?_ofDefinition] at hparams ⊢
  · rwa [madeIn, hread] at hmade

/-- The spelling of a macro is a definition of it. If no token of its replacement list is unknown or
a raw string, and no token that was made by pasting when it was defined is a pasting operator, then
its spelling is read as a macro of the same class, with the same name, parameters, and kinds and
values of tokens. Its replacement list is its own normal form. -/
theorem ofText_spelling {text : String} {m : Macro} (h : (Macro.ofText text).value = .ok m)
    (hplain : ∀ t ∈ m.body, t.isPlain = true)
    (hmade : ∀ t ∈ madeIn text, t.isPaste = false) :
    (∃ m', (Macro.ofText m.spelling).value = .ok m' ∧ Alike m' m) ∧
      (Macro.ofDefinition m.name (m.signature?.map (·.spellings)) m.body).value.body = m.body := by
  have hdefined := defined_ofText h
  have hagain := body_ofDefinition_body h hmade
  obtain ⟨m', hm', hunplaced⟩ := hdefined.reads_spelling hplain
  refine ⟨⟨m', hm', (defined_ofText hm').alike hdefined ?_ ?_ ?_⟩, hagain⟩
  · rw [← name_unplaced, hunplaced, name_ofDefinition]
  · rw [← signature?_unplaced, hunplaced, signature?_ofDefinition, hdefined.ofSpellings_signature?]
  · -- The tokens that are read differ from those of the macro in white space and place only.
    have hfaces : (m.body.map fun t => reading t.kind t.value.toList true false).map Token.face =
        m.body.map Token.face := by
      rw [List.map_map]
      exact List.map_congr_left fun t _ => by simp [Token.face, reading]
    rw [← face_body_unplaced, hunplaced, face_ofDefinition hfaces, hagain]

/-- A variadic macro. Two names are pasted when it is defined, a parameter and another when it is
used. -/
theorem ofText_spelling_variadic :
    ∃ m, (Macro.ofText "f( x, y... )=a##b x ## y #x").value = .ok m ∧
      m.spelling = "f(x,y...) ab x ## y # x" ∧ (∀ t ∈ m.body, t.isPlain = true) ∧
      (madeIn "f( x, y... )=a##b x ## y #x").map Token.face = [(.identifier, "ab")] ∧
      (∃ m', (Macro.ofText "f(x,y...) ab x ## y # x").value = .ok m' ∧ Alike m' m) ∧
      (Macro.ofDefinition m.name (m.signature?.map (·.spellings)) m.body).value.body = m.body := by
  -- What the text defines, as far as it has to be computed.
  have hlook : (Macro.ofText "f( x, y... )=a##b x ## y #x").value.toOption.map
      (fun m => (m.spelling, m.body.all Token.isPlain)) =
        some ("f(x,y...) ab x ## y # x", true) := by decide +kernel
  have hmade : (madeIn "f( x, y... )=a##b x ## y #x").map Token.face = [(.identifier, "ab")] := by
    decide +kernel
  have hpaste : (madeIn "f( x, y... )=a##b x ## y #x").all (!·.isPaste) = true := by
    decide +kernel
  cases hm : (Macro.ofText "f( x, y... )=a##b x ## y #x").value with
  | error e =>
    rw [hm] at hlook
    cases hlook
  | ok m =>
    rw [hm] at hlook
    obtain ⟨hspelling, hplain⟩ := Prod.mk.inj (Option.some.inj hlook)
    have hread := ofText_spelling hm (List.all_eq_true.1 hplain) fun t ht => by
      simpa using List.all_eq_true.1 hpaste t ht
    rw [hspelling] at hread
    exact ⟨m, rfl, hspelling, List.all_eq_true.1 hplain, hmade, hread⟩

end Macro

end Preproc
