import Preproc.Proofs.Lexing.Splices
import Preproc.Proofs.Macro.Headers
import Preproc.Proofs.Preprocessor.Directives

/-!
# The forms of a definition

A macro is defined by a header and a body with a space between them, in a line that starts with
`#define` or by itself, or by a header and a body with an equals sign between them. The three define
the same macro, with one exception: an equals sign that starts the body sticks to the one before it,
and both are read as a comparison.

What a definition gives depends on the tokens of its body alone, and not on white space before the
first of them; this is where the forms meet. Where the body starts with an equals sign they part,
because the normal form keeps every character of the body but those of pasting operators, and so
the number of equals signs.

## Key results

- `Macro.ofDefinition_dropLeadingWhite`: white space before the body does not matter
- `Macro.ofText_space`, `Macro.ofText_equals`, `lineDefines_define`: what each form defines
- `ink_ofDefinition`: a character that no pasting operator has is kept by the normal form
- `definition_forms`: the three forms define the same macro unless the body starts with `=`
-/

namespace Preproc

/-! ## White space before the body -/

private theorem value_trimPastes_paste {t : Token} (ht : t.isPaste = true) (name : String)
    (ts : List Token) : (trimPastes name (t :: ts)).value = (trimPastes name ts).value := by
  simp only [trimPastes, List.dropWhile_cons, ht, if_true]

/-- Behind another token only operators at the end are dropped. -/
theorem value_trimPastes_cons {t : Token} (ht : t.isPaste = false) (name : String)
    (ts : List Token) :
    (trimPastes name (t :: ts)).value = t :: (ts.reverse.dropWhile Token.isPaste).reverse := by
  -- The token stops both the operators before it and those at the end.
  have hlast : (ts.reverse ++ [t]).dropWhile Token.isPaste =
      ts.reverse.dropWhile Token.isPaste ++ [t] := by
    rw [List.dropWhile_append]
    split
    · rename_i hall
      simp [List.isEmpty_iff.1 hall, ht]
    · rfl
  show (((t :: ts).dropWhile Token.isPaste).reverse.dropWhile Token.isPaste).reverse = _
  rw [List.dropWhile_cons_of_neg (by simp [ht]), List.reverse_cons, hlast, List.reverse_concat]

/-- The trimmed list has no white space before its first token anyway. -/
private theorem value_trimmedBody_dropLeadingWhite (name : String) (ts : List Token) :
    (trimmedBody name (dropLeadingWhite ts)).value = (trimmedBody name ts).value := by
  cases ts with
  | nil => rfl
  | cons t ts =>
    have hpaste : (t.withWhite false).isPaste = t.isPaste := rfl
    rw [trimmedBody, trimmedBody, Noted.value_map, Noted.value_map, dropLeadingWhite,
      collapsePastes, collapsePastes, hpaste, if_neg (by simp), if_neg (by simp)]
    -- A leading operator is dropped, and any other token loses its mark anyway.
    cases ht : t.isPaste with
    | true => rw [value_trimPastes_paste ht, value_trimPastes_paste (hpaste.trans ht)]
    | false =>
      rw [value_trimPastes_cons ht, value_trimPastes_cons (hpaste.trans ht)]
      rfl

/-- White space before the body of a definition does not matter. -/
theorem Macro.ofDefinition_dropLeadingWhite (name : String) (params : Option (List String))
    (ts : List Token) :
    (Macro.ofDefinition name params (dropLeadingWhite ts)).value =
      (Macro.ofDefinition name params ts).value := by
  -- The body is trimmed before anything else is done with it.
  cases params <;>
    simp only [Macro.ofDefinition, Macro.ofBody, Macro.ofFunction, Noted.value_bind,
      Noted.value_map, value_trimmedBody_dropLeadingWhite]

/-- The tokens of the body of a definition, without places. -/
def bodyTokens (white : Bool) (cs : List Char) : List Token :=
  (readings white false cs).dropLast

/-- White space before the text of a body shows at its first token only. -/
private theorem dropLeadingWhite_bodyTokens (white : Bool) (cs : List Char) :
    dropLeadingWhite (bodyTokens white cs) = dropLeadingWhite (bodyTokens false cs) := by
  obtain ⟨t, ts, hread⟩ := exists_readings false cs
  rw [bodyTokens, bodyTokens, hread, hread]
  cases ts with
  | nil => rfl
  | cons u ts => rfl

/-- White space before the replacement list does not matter to what is defined. -/
private theorem Macro.ofDefinition_bodyTokens (name : String) (params : Option (List String))
    (white : Bool) (cs : List Char) : (Macro.ofDefinition name params (bodyTokens white cs)).value =
      (Macro.ofDefinition name params (bodyTokens false cs)).value := by
  rw [← Macro.ofDefinition_dropLeadingWhite, dropLeadingWhite_bodyTokens,
    Macro.ofDefinition_dropLeadingWhite]

/-! ## Definitions by themselves -/

/-- A space or an equals sign joins two logical texts. -/
private theorem logicalText_join {before : List Char} (h : before.getLast? ≠ some '\\') {c : Char}
    (hc : c ∈ [' ', '=']) (after : List Char) :
    logicalText (before ++ c :: after) = logicalText before ++ c :: logicalText after := by
  have hmark : c ≠ '\r' ∧ c ≠ '\n' ∧ c ≠ '\\' := by
    rcases List.mem_pair.1 hc with rfl | rfl <;> decide
  have hsingle : logicalText [c] = [c] := by
    rw [logicalText_line (by simpa using hmark.1.symm) (by simpa using hmark.2.1.symm),
      if_neg (by simpa [isSpliced] using hmark.2.2)]
  -- The sign ends neither in a carriage return nor in a backslash, so nothing depends on what
  -- follows.
  have hafter : logicalText ([c] ++ after) = logicalText [c] ++ logicalText after := by
    apply logicalText_append
    · intro hreturn
      exact absurd (Option.some.inj hreturn) hmark.1
    · simpa using hmark.2.2
  rw [hsingle, List.singleton_append] at hafter
  rw [logicalText_append (fun _ => by simpa using hmark.2.1) h, hafter, List.singleton_append]

/-- A text that starts with a header defines what its body says. -/
theorem Header.ofText {cs rest : List Char} {name : String} {params : Option (List String)}
    (h : Header cs name params) (hends : endsName rest = true)
    (hopens : opensNothing (bodyTokens false rest) = true) {text : String}
    (htext : logicalText text.toList = cs ++ rest) :
    ∃ m, (Macro.ofText text).value = .ok m ∧
      m.unplaced =
        (Macro.ofDefinition name params (dropEquals (bodyTokens false rest))).value := by
  obtain ⟨ts, n, ps, hread, -, hdefinition, rfl, rfl⟩ := h.reads hends false true
  apply Macro.unplaced_ofText
  -- The header is read first, and what follows is read on its own.
  rw [htext, hread, List.dropLast_append_of_ne_nil (readings_ne_nil _ _ _)]
  exact hdefinition _ hopens

/-- A space before a body is white space before its first token. -/
private theorem bodyTokens_space (cs : List Char) :
    bodyTokens false (' ' :: cs) = bodyTokens true cs := by
  rw [bodyTokens, readings_space]
  rfl

/-- Behind white space the body is neither a parameter list nor separated by an equals sign. -/
private theorem bodyTokens_white (cs : List Char) :
    opensNothing (bodyTokens true cs) = true ∧
      dropEquals (bodyTokens true cs) = bodyTokens true cs := by
  obtain ⟨t, ts, hread⟩ := exists_readings false cs
  rw [bodyTokens, hread]
  cases ts with
  | nil => exact ⟨rfl, rfl⟩
  | cons u ts => simp [opensNothing, dropEquals, Token.withWhite]

/-- Before anything but another, an equals sign is a token. -/
private theorem bodyTokens_equals {cs : List Char} (h : cs.head? ≠ some '=') :
    bodyTokens false ('=' :: cs) =
      reading .punctuator ['='] false false :: bodyTokens false cs := by
  have hread : readings false false ('=' :: cs) =
      reading .punctuator ['='] false false :: readings false false cs :=
    readings_spelled (.punctuator (by decide)) (not_punctuatorSticks_equals h) false false
  rw [bodyTokens, hread, List.dropLast_cons_of_ne_nil (readings_ne_nil _ _ _)]
  rfl

/-- Two equals signs are a comparison. -/
private theorem bodyTokens_comparison (cs : List Char) :
    bodyTokens false ('=' :: '=' :: cs) =
      reading .punctuator ['=', '='] false false :: bodyTokens false cs := by
  have hread : readings false false ('=' :: '=' :: cs) =
      reading .punctuator ['=', '='] false false :: readings false false cs :=
    @readings_spelled .punctuator ['=', '='] cs (.punctuator (by decide))
      (not_punctuatorSticks_of_mem (by decide) cs) false false
  rw [bodyTokens, hread, List.dropLast_cons_of_ne_nil (readings_ne_nil _ _ _)]
  rfl

section Forms

variable {h : String} {name : String} {params : Option (List String)}
  (hheader : Header (logicalText h.toList) name params) (hlast : h.toList.getLast? ≠ some '\\')
  (b : String)

include hheader hlast

/-- A header and a body that are joined by a space or an equals sign. -/
private theorem Header.ofText_join {c : Char} (hc : c ∈ [' ', '=']) {text : String}
    (htext : text.toList = h.toList ++ c :: b.toList)
    (hopens : opensNothing (bodyTokens false (c :: logicalText b.toList)) = true) :
    ∃ m, (Macro.ofText text).value = .ok m ∧
      m.unplaced = (Macro.ofDefinition name params
        (dropEquals (bodyTokens false (c :: logicalText b.toList)))).value := by
  apply hheader.ofText _ hopens
  · rw [htext, logicalText_join hlast hc]
  · rcases List.mem_pair.1 hc with rfl | rfl <;> rfl

/-- A header, a space and a body. -/
theorem Macro.ofText_space :
    ∃ m, (Macro.ofText (h ++ " " ++ b)).value = .ok m ∧
      m.unplaced =
        (Macro.ofDefinition name params (bodyTokens false (logicalText b.toList))).value := by
  obtain ⟨hopens, hbody⟩ := bodyTokens_white (logicalText b.toList)
  have hjoin := @Header.ofText_join h name params hheader hlast b ' ' (by decide) (h ++ " " ++ b)
  rw [bodyTokens_space, hbody, Macro.ofDefinition_bodyTokens] at hjoin
  exact hjoin (by simp) hopens

/-- A header, an equals sign and a body that does not start with another. -/
theorem Macro.ofText_equals (hb : (logicalText b.toList).head? ≠ some '=') :
    ∃ m, (Macro.ofText (h ++ "=" ++ b)).value = .ok m ∧
      m.unplaced =
        (Macro.ofDefinition name params (bodyTokens false (logicalText b.toList))).value := by
  have hjoin := @Header.ofText_join h name params hheader hlast b '=' (by decide) (h ++ "=" ++ b)
  rw [bodyTokens_equals hb] at hjoin
  exact hjoin (by simp) rfl

/-- A header, an equals sign and a body that starts with another: both are one token. -/
private theorem Macro.ofText_comparison {cs : List Char} (hb : logicalText b.toList = '=' :: cs) :
    ∃ m, (Macro.ofText (h ++ "=" ++ b)).value = .ok m ∧
      m.unplaced = (Macro.ofDefinition name params
        (reading .punctuator ['=', '='] false false :: bodyTokens false cs)).value := by
  have hjoin := @Header.ofText_join h name params hheader hlast b '=' (by decide) (h ++ "=" ++ b)
  rw [hb, bodyTokens_comparison cs] at hjoin
  exact hjoin (by simp) rfl

end Forms

/-! ## Ink -/

/-- Making runs of operators one leaves all other tokens. -/
private theorem filter_collapsePastes (inRun : Bool) (ts : List Token) :
    (collapsePastes inRun ts).filter (!·.isPaste) = ts.filter (!·.isPaste) := by
  fun_induction collapsePastes inRun ts with
  | case1 => rfl
  | case2 inRun t ts hskip ih =>
    rw [Bool.and_eq_true] at hskip
    rw [ih, List.filter_cons_of_neg (by simp [hskip.2])]
  | case3 inRun t ts hkeep ih => rw [List.filter_cons, List.filter_cons, ih]

/-- Dropping operators at the start leaves all other tokens. -/
private theorem filter_dropWhile_isPaste (ts : List Token) :
    (ts.dropWhile Token.isPaste).filter (!·.isPaste) = ts.filter (!·.isPaste) := by
  induction ts with
  | nil => rfl
  | cons t ts ih =>
    by_cases ht : t.isPaste = true
    · rw [List.dropWhile_cons_of_pos ht, ih, List.filter_cons_of_neg (by simp [ht])]
    · rw [List.dropWhile_cons_of_neg ht]

/-- Trimming leaves all other tokens. -/
private theorem filter_trimPastes (name : String) (ts : List Token) :
    (trimPastes name ts).value.filter (!·.isPaste) = ts.filter (!·.isPaste) := by
  rw [trimPastes, List.filter_reverse, filter_dropWhile_isPaste, List.filter_reverse,
    List.reverse_reverse, filter_dropWhile_isPaste]

/-- How often the character `c` stands in the tokens. -/
def ink (c : Char) (ts : List Token) : Nat :=
  (ts.flatMap (·.value.toList)).count c

section Ink

variable (c : Char)

/-- No tokens have no characters. -/
@[simp]
theorem ink_nil : ink c [] = 0 := rfl

/-- The characters of a token are counted with those of the others. -/
@[simp]
theorem ink_cons (t : Token) (ts : List Token) :
    ink c (t :: ts) = t.value.toList.count c + ink c ts := by
  rw [ink, List.flatMap_cons, List.count_append]
  rfl

/-- The characters of two lists are counted together. -/
@[simp]
theorem ink_append (ts us : List Token) : ink c (ts ++ us) = ink c ts + ink c us := by
  rw [ink, List.flatMap_append, List.count_append]
  rfl

/-- Pasting keeps the text of its operands. -/
private theorem ink_paste (left right : Token) :
    ink c (paste left right).value = left.value.toList.count c + right.value.toList.count c := by
  rcases paste_cases left right with hboth | ⟨t, -, hvalue, hone⟩
  · simp [hboth]
  · have hplaced : (t.inPlaceOf left).value = left.value ++ right.value := hvalue
    simp [hone, hplaced]

/-- White space is no ink. -/
private theorem ink_dropLeadingWhite (ts : List Token) :
    ink c (dropLeadingWhite ts) = ink c ts := by
  cases ts with
  | nil => rfl
  | cons t ts => rfl

variable {c} (hc : ∀ value ∈ Token.hashHash, c ∉ value.toList)

include hc

/-- A pasting operator does not have such a character. -/
private theorem count_of_isPaste {t : Token} (ht : t.isPaste = true) :
    t.value.toList.count c = 0 := by
  rw [Token.isPaste, Token.isOneOf, Bool.and_eq_true, List.contains_iff_mem] at ht
  exact List.count_eq_zero.2 (hc _ ht.2)

/-- Only what is no pasting operator counts. -/
private theorem ink_filter (ts : List Token) : ink c (ts.filter (!·.isPaste)) = ink c ts := by
  induction ts with
  | nil => rfl
  | cons t ts ih =>
    cases ht : t.isPaste with
    | true => simp [ht, ih, count_of_isPaste hc ht]
    | false => simp [ht, ih]

/-- Trimming keeps such a character. -/
private theorem ink_trimmedBody (name : String) (ts : List Token) :
    ink c (trimmedBody name ts).value = ink c ts := by
  rw [trimmedBody, Noted.value_map, ink_dropLeadingWhite, ← ink_filter hc, filter_trimPastes,
    filter_collapsePastes, ink_filter hc]

/-- Pasting constants keeps such a character. -/
private theorem ink_pasteConstants (sig : Option Signature) (body : List Token) :
    ink c (pasteConstants sig [] body).value = ink c body := by
  apply pasteConstants_induction (P := fun ts => ink c ts = ink c body)
  · -- The operator is lost, and its operands keep their text.
    intro l left p right r hp hink
    rw [← hink]
    simp only [ink_append, ink_cons, ink_paste, count_of_isPaste hc hp]
    omega
  · intro l p r hp _ hink
    rw [← hink]
    simp only [ink_append, ink_cons, count_of_isPaste hc hp]
    omega
  · rfl

/-- A character that no pasting operator has is kept by the normal form. -/
theorem ink_ofDefinition (name : String) (params : Option (List String)) (ts : List Token) :
    ink c (Macro.ofDefinition name params ts).value.body = ink c ts := by
  cases params with
  | none => exact (ink_pasteConstants hc _ _).trans (ink_trimmedBody hc name ts)
  | some ps => exact (ink_pasteConstants hc _ _).trans (ink_trimmedBody hc name ts)

end Ink

/-- An equals sign more before a body is one more in its tokens, whatever it sticks to. -/
private theorem ink_bodyTokens_equals (cs : List Char) :
    ink '=' (bodyTokens false ('=' :: cs)) = ink '=' (bodyTokens false cs) + 1 := by
  have hcount : (String.ofList ['=']).toList.count '=' = 1 ∧
      (String.ofList ['=', '=']).toList.count '=' = 2 := by decide
  induction cs with
  | nil =>
    rw [bodyTokens_equals (by simp), ink_cons, value_reading, hcount.1, Nat.add_comm]
  | cons c cs ih =>
    by_cases hc : c = '='
    · -- Two of them are one token, and a third is not part of it.
      rw [hc, bodyTokens_comparison, ink_cons, value_reading, hcount.2, ih]
      omega
    · rw [bodyTokens_equals (by simpa using hc), ink_cons, value_reading, hcount.1, Nat.add_comm]

/-! ## Definitions in a line -/

namespace Lexed

/-- Tokens that start no line go on with the one before them. -/
private theorem groupLines_single (closing : List Note) {line : List Token} (hline : line ≠ [])
    (notes : List Note) {ts : List (Noted Token)} (h : ∀ t ∈ ts, t.value.bol = false) :
    (groupLines closing line notes ts).1.map (·.value) = [line.reverse ++ ts.map (·.value)] := by
  induction ts generalizing line notes with
  | nil => simp [groupLines, hline]
  | cons t ts ih =>
    rw [groupLines, h t List.mem_cons_self, Bool.false_and, if_neg (by simp),
      ih (by simp) _ fun u hu => h u (List.mem_cons_of_mem t hu)]
    simp

/-- Tokens of which none but the first starts a line are one line. -/
private theorem lines_single {x : Lexed} {t : Token} {ts : List Token}
    (hall : x.all.value = t :: ts) (h : ∀ u ∈ ts, u.bol = false) :
    x.lines.1.map (·.value) = [t :: ts] := by
  obtain ⟨first, rest, htokens, rfl, rfl⟩ := List.map_eq_cons_iff.1 hall
  rw [lines, htokens, groupLines]
  simp only [List.isEmpty_nil, Bool.not_true, Bool.and_false]
  exact groupLines_single _ (by simp) _ fun u hu => h _ (List.mem_map_of_mem hu)

end Lexed

/-- A line that holds a definition is heeded outside of skipped code. -/
private theorem heeded_define {c : Context} (hactive : c.conditionals.active = true)
    {t u name : Token} {rest body : List Token} {params : Option (List Token)}
    (ht : t.isHash = true) (hu : u.isName = true) (hword : u.value = "define")
    (hread : readDefinition rest = .ok ((name, params), body)) :
    c.heeded? (t :: u :: rest) = some ⟨t :: u :: rest, .define name params body⟩ := by
  simp [Context.heeded?, hactive, parseLine, parseLineWith, ht, readDirective,
    conditionalProductions, otherProductions, Production.read?, hu, hword, Production.words,
    Production.readOperands, hread]

/-- The macro that a line defines outside of skipped code. -/
def LineDefines (line : List Token) (m : Macro) : Prop :=
  ∀ (env : Environment) (base : Nat) (c : Context), c.conditionals.active = true →
    ∃ c', Context.directive env base line c = .ok none c' ∧ c'.macros = c.macros.define m

/-- A line that reads as a definition defines the macro. -/
private theorem lineDefines_of_readDefinition {t u name : Token} {rest body : List Token}
    {params : Option (List Token)} (ht : t.isHash = true) (hu : u.isName = true)
    (hword : u.value = "define") (hread : readDefinition rest = .ok ((name, params), body)) :
    LineDefines (t :: u :: rest)
      (Macro.ofDefinition name.value (params.map (·.map (·.value))) body).value := by
  intro env base c hactive
  rw [Context.directive_of_heeded (heeded_define hactive ht hu hword hread)]
  exact ⟨_, rfl, rfl⟩

/-- Tokens that read as a line with a definition, apart from places, are one. -/
private theorem lineDefines_of_unplaced {line tokens body : List Token} {t u name : Token}
    {params : Option (List Token)} (hline : line.map Token.unplaced = t :: u :: tokens)
    (ht : t.isHash = true) (hu : u.isName = true) (hword : u.value = "define")
    (hread : readDefinition tokens = .ok ((name, params), body)) :
    ∃ m, LineDefines line m ∧
      m.unplaced = (Macro.ofDefinition name.value (params.map (·.map (·.value))) body).value := by
  obtain ⟨t', line', rfl, rfl, hline'⟩ := List.map_eq_cons_iff.1 hline
  obtain ⟨u', rest, rfl, rfl, rfl⟩ := List.map_eq_cons_iff.1 hline'
  -- The line has the same tokens with places.
  obtain ⟨name', params', body', hread', hname, hparams, rfl⟩ := of_readDefinition_unplaced hread
  refine ⟨_, lineDefines_of_readDefinition ht hu hword hread', ?_⟩
  rw [Macro.mapBody_ofDefinition Token.incidental_unplaced, hname, hparams]
  rfl

/-- The text that starts a line with a definition. -/
private theorem readings_define (rest : List Char) :
    readings false true ("#define ".toList ++ rest) =
      reading .punctuator ['#'] false true ::
        reading (nameKind "define".toList) "define".toList false false ::
          readings true false rest := by
  have hword : NameText "define".toList := by decide
  have hhash := @readings_spelled .punctuator ['#'] ("define".toList ++ ' ' :: rest)
    (.punctuator (by decide)) rfl false true
  rw [hword.readings rfl, readings_space] at hhash
  exact hhash

section Line

variable {h : String} {name : String} {params : Option (List String)}
  (hheader : Header (logicalText h.toList) name params) (hlast : h.toList.getLast? ≠ some '\\')
  {b : String} (hreturn : '\r' ∉ b.toList) (hnewline : '\n' ∉ b.toList)

include hheader hlast hreturn hnewline

/-- The text of a line with a definition is a single line, and defines what its body says. -/
theorem lineDefines_define (file : String) :
    ∃ line m, (lexText file ("#define " ++ h ++ " " ++ b).toList).value.lines.1.map (·.value) =
        [line] ∧
      LineDefines line m ∧
      m.unplaced =
        (Macro.ofDefinition name params (bodyTokens false (logicalText b.toList))).value := by
  let body := logicalText b.toList
  have htext : logicalText ("#define " ++ h ++ " " ++ b).toList =
      "#define ".toList ++ (logicalText h.toList ++ ' ' :: body) := by
    have hstart : logicalText "#define ".toList = "#define ".toList := by decide
    calc logicalText ("#define " ++ h ++ " " ++ b).toList
        = logicalText ("#define ".toList ++ (h.toList ++ ' ' :: b.toList)) := by simp
      _ = logicalText "#define ".toList ++ logicalText (h.toList ++ ' ' :: b.toList) :=
          logicalText_append (fun hpair => absurd hpair (by decide)) (by decide)
      _ = _ := by rw [hstart, logicalText_join hlast (by decide)]
  obtain ⟨ts, n, ps, hread, hbol, hdefinition, rfl, rfl⟩ :=
    @Header.reads _ _ _ hheader (' ' :: body) rfl true false
  -- The tokens of the line, without their places.
  have hline := unplaced_all file ("#define " ++ h ++ " " ++ b).toList
  rw [htext, readings_define, hread, ← List.cons_append, ← List.cons_append,
    List.dropLast_append_of_ne_nil (readings_ne_nil _ _ _), List.cons_append, List.cons_append,
    ← bodyTokens, bodyTokens_space] at hline
  obtain ⟨m, hdefines, hm⟩ := lineDefines_of_unplaced hline rfl (isName_reading_name _ _ _) rfl
    (hdefinition _ (bodyTokens_white body).1)
  rw [Macro.ofDefinition_bodyTokens] at hm
  refine ⟨_, m, ?_, hdefines, hm⟩
  obtain ⟨t, line, hall, -, hrest⟩ := List.map_eq_cons_iff.1 hline
  rw [hall]
  refine Lexed.lines_single hall fun u hu => Bool.eq_false_iff.2 fun hstart => ?_
  -- No token behind the first starts a line.
  have hmem : u.unplaced ∈ line.map Token.unplaced := List.mem_map_of_mem hu
  rw [hrest, List.mem_cons, List.mem_append] at hmem
  have hsplit : '\n' ∉ body := fun hmem =>
    hnewline (logicalText_line_subset hreturn hnewline hmem)
  rcases hmem with hword | hheaded | hbody
  · cases (congrArg Token.bol hword).symm.trans hstart
  · cases hbol _ hheaded hstart
  · cases bol_of_mem_readings hsplit (List.dropLast_subset _ hbody) hstart

end Line

/-! ## The forms compared -/

/-- The name of a macro is the one given for it. -/
theorem Macro.name_ofDefinition (name : String) (params : Option (List String)) (ts : List Token) :
    (Macro.ofDefinition name params ts).value.name = name := by
  cases params <;> rfl

/-- The parameters of a macro are those given for it. -/
theorem Macro.signature?_ofDefinition (name : String) (params : Option (List String))
    (ts : List Token) :
    (Macro.ofDefinition name params ts).value.signature? = params.map Signature.ofSpellings := by
  cases params <;> rfl

/-- Characters are counted in the texts of tokens. -/
private theorem ink_of_face {ts us : List Token} (h : ts.map Token.face = us.map Token.face)
    (c : Char) : ink c ts = ink c us := by
  have hface : ∀ ts : List Token,
      ink c ts = ((ts.map Token.face).flatMap (·.2.toList)).count c := by
    intro ts
    rw [List.flatMap_map]
    rfl
  rw [hface, hface, h]

/-- A macro that is defined by these tokens but for places has as many equals signs as they have. -/
private theorem Macro.ink_body_of_unplaced {m : Macro} {name : String}
    {params : Option (List String)} {ts : List Token}
    (h : m.unplaced = (Macro.ofDefinition name params ts).value) :
    ink '=' m.body = ink '=' ts := by
  have hbody : m.body.map Token.unplaced = (Macro.ofDefinition name params ts).value.body := by
    rw [← Macro.body_unplaced, h]
  rw [← @ink_ofDefinition '=' (by decide) name params ts, ← hbody]
  apply ink_of_face
  rw [List.map_map]
  rfl

/-- A definition in a line, one by itself, and one with an equals sign before its body are all
accepted for every header and body. The first two define the same macro but for places, and so does
the third exactly if the body does not start with an equals sign. -/
theorem definition_forms {h b : String} {name : String} {params : Option (List String)}
    (hheader : Header (logicalText h.toList) name params) (hlast : h.toList.getLast? ≠ some '\\')
    (hbody : '\r' ∉ b.toList ∧ '\n' ∉ b.toList) (file : String) :
    ∃ (m mEquals mLine : Macro) (line : List Token),
      (Macro.ofText (h ++ " " ++ b)).value = .ok m ∧
      (Macro.ofText (h ++ "=" ++ b)).value = .ok mEquals ∧
      (lexText file ("#define " ++ h ++ " " ++ b).toList).value.lines.1.map (·.value) = [line] ∧
      LineDefines line mLine ∧
      m.name = name ∧ m.signature? = params.map Signature.ofSpellings ∧
      mLine.unplaced = m.unplaced ∧
      (b.toList.head? ≠ some '=' → mEquals.unplaced = m.unplaced) ∧
      (b.toList.head? = some '=' → mEquals.body.map Token.face ≠ m.body.map Token.face) := by
  obtain ⟨m, hm, hunplaced⟩ := Macro.ofText_space hheader hlast b
  obtain ⟨line, mLine, hline, hdefines, hsame⟩ :=
    lineDefines_define hheader hlast hbody.1 hbody.2 file
  have hname : m.name = name := by
    rw [← Macro.name_unplaced, hunplaced, Macro.name_ofDefinition]
  have hsignature : m.signature? = params.map Signature.ofSpellings := by
    rw [← Macro.signature?_unplaced, hunplaced, Macro.signature?_ofDefinition]
  have hstart := @head?_logicalText_line b.toList hbody.1 hbody.2 '=' (by decide)
  by_cases hequals : b.toList.head? = some '='
  · obtain ⟨cs, hcs⟩ := List.head?_eq_some_iff.1 (hstart.2 hequals)
    obtain ⟨mEquals, hmEquals, hagain⟩ := Macro.ofText_comparison hheader hlast b hcs
    refine ⟨m, mEquals, mLine, line, hm, hmEquals, hline, hdefines, hname, hsignature,
      hsame.trans hunplaced.symm, fun hother => absurd hequals hother, fun _ hfaces => ?_⟩
    -- The one has an equals sign more than the other.
    have hink := ink_of_face hfaces '='
    rw [Macro.ink_body_of_unplaced hunplaced, Macro.ink_body_of_unplaced hagain, hcs,
      ink_bodyTokens_equals, ink_cons, value_reading] at hink
    have htwo : (String.ofList ['=', '=']).toList.count '=' = 2 := by decide
    omega
  · obtain ⟨mEquals, hmEquals, hagain⟩ :=
      Macro.ofText_equals hheader hlast b (hstart.not.2 hequals)
    exact ⟨m, mEquals, mLine, line, hm, hmEquals, hline, hdefines, hname, hsignature,
      hsame.trans hunplaced.symm, fun _ => hagain.trans hunplaced.symm,
      fun habsurd => absurd habsurd hequals⟩

/-- A function-like macro with a named variable argument, and blanks among its parameters. -/
theorem definition_forms_variadic :
    ∃ (m mEquals mLine : Macro) (line : List Token),
      (Macro.ofText ("f( x,y... )" ++ " " ++ "x ## y /")).value = .ok m ∧
      (Macro.ofText ("f( x,y... )" ++ "=" ++ "x ## y /")).value = .ok mEquals ∧
      (lexText "a.c" ("#define " ++ "f( x,y... )" ++ " " ++ "x ## y /").toList).value.lines.1.map
        (·.value) = [line] ∧
      LineDefines line mLine ∧
      m.name = "f" ∧ m.signature? = some ⟨["x", "y"], true⟩ ∧
      mLine.unplaced = m.unplaced ∧ mEquals.unplaced = m.unplaced := by
  let blank : Spacing := ⟨[.blank ' '], by simpa using Trivia.Inline.blank rfl⟩
  have hheader : Header (logicalText "f( x,y... )".toList) "f" (some ["x", "y..."]) := by
    -- The header, piece by piece as its grammar has it.
    have htext : logicalText "f( x,y... )".toList = ['f'] ++ (['('] ++ (blank.text ++ (['x'] ++
        (Spacing.none.text ++ ([','] ++ (Spacing.none.text ++ (['y'] ++ (Spacing.none.text ++
          (['.', '.', '.'] ++ (blank.text ++ [')'])))))))))) := by decide
    rw [htext]
    exact .function (by decide) (.more _ _ (by decide) (.namedDots _ _ _ (by decide)))
  obtain ⟨m, mEquals, mLine, line, hm, hmEquals, hline, hdefines, hn, hs, hsame, hequals, -⟩ :=
    @definition_forms "f( x,y... )" "x ## y /" "f" (some ["x", "y..."]) hheader (by decide)
      (by decide) "a.c"
  exact ⟨m, mEquals, mLine, line, hm, hmEquals, hline, hdefines, hn, hs, hsame,
    hequals (by decide)⟩

/-- The header `A` and the body `=1`: with a space between them, `A` stands for `=1`, with an equals
sign for `==1`. -/
theorem definition_forms_comparison :
    Header "A".toList "A" none ∧
    (Macro.ofText ("A" ++ " " ++ "=1")).value.toOption.map (·.body.map Token.face) =
      some [(.punctuator, "="), (.number, "1")] ∧
    (Macro.ofText ("A" ++ "=" ++ "=1")).value.toOption.map (·.body.map Token.face) =
      some [(.punctuator, "=="), (.number, "1")] := by
  refine ⟨.object (by decide), ?_, ?_⟩
  · decide +kernel
  · decide +kernel

end Preproc
