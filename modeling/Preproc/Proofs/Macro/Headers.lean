import Preproc.Proofs.Macro.Faces

/-!
# The header of a definition

A definition starts with the name of the macro, or with the name and, directly behind it, a
parameter list in parentheses. Within the parentheses blanks and comments may stand anywhere, and a
comma may stand behind the last parameter. `Header` says which texts are headers, character by
character, and which name and parameters they give.

A header is read as such whatever stands behind it, as long as that neither continues a name nor
opens a parameter list.

## Key results

- `ParamText.reads`: a parameter list is read up to its closing parenthesis
- `Header.reads`: a header is read as its name and parameters, and what is left is the body
-/

namespace Preproc

/-- The text of a name. -/
structure NameText (cs : List Char) : Prop where
  solid : cs ≠ []
  digit : cs.head?.any Text.isDigit = false
  chars : ∀ c ∈ cs, isNameChar c = true

instance (cs : List Char) : Decidable (NameText cs) :=
  decidable_of_iff (cs ≠ [] ∧ cs.head?.any Text.isDigit = false ∧ cs.all isNameChar = true)
    ⟨fun ⟨solid, digit, chars⟩ => ⟨solid, digit, List.all_eq_true.1 chars⟩,
      fun ⟨solid, digit, chars⟩ => ⟨solid, digit, List.all_eq_true.2 chars⟩⟩

/-- Blanks and closed comments between two tokens of a line. -/
structure Spacing where
  pieces : List Trivia
  inline : ∀ p ∈ pieces, p.Inline

namespace Spacing

/-- The characters of white space. -/
def text (s : Spacing) : List Char :=
  Trivia.texts s.pieces

/-- No white space at all. -/
def none : Spacing :=
  ⟨[], by simp⟩

end Spacing

/-- The text of a parameter list, from behind its opening parenthesis to its closing one, and the
spellings of the parameters. -/
inductive ParamText : List Char → List String → Prop
  | close (s : Spacing) : ParamText (s.text ++ [')']) []
  | last (s s' : Spacing) {p : List Char} (name : NameText p) :
      ParamText (s.text ++ (p ++ (s'.text ++ [')']))) [String.ofList p]
  | dots (s s' : Spacing) :
      ParamText (s.text ++ (['.', '.', '.'] ++ (s'.text ++ [')']))) ["..."]
  | namedDots (s s' s'' : Spacing) {p : List Char} (name : NameText p) :
      ParamText (s.text ++ (p ++ (s'.text ++ (['.', '.', '.'] ++ (s''.text ++ [')'])))))
        [String.ofList p ++ "..."]
  | more (s s' : Spacing) {p cs : List Char} {ps : List String} (name : NameText p)
      (rest : ParamText cs ps) :
      ParamText (s.text ++ (p ++ (s'.text ++ ([','] ++ cs)))) (String.ofList p :: ps)

/-- The text of a header, its name, and the spellings of its parameters if it has a parameter
list. -/
inductive Header : List Char → String → Option (List String) → Prop
  | object {n : List Char} (name : NameText n) : Header n (String.ofList n) none
  | function {n cs : List Char} {ps : List String} (name : NameText n) (params : ParamText cs ps) :
      Header (n ++ (['('] ++ cs)) (String.ofList n) (some ps)

/-- What may follow a name without changing it. -/
def endsName (rest : List Char) : Bool :=
  !rest.head?.any fun c => isNameChar c || ['"', '\''].contains c

/-! ## Tokens of a header -/

/-- A name is read as such before what may follow it. -/
theorem NameText.readings {n rest : List Char} (h : NameText n) (hrest : endsName rest = true)
    (white bol : Bool) :
    readings white bol (n ++ rest) =
      reading (nameKind n) n white bol :: Preproc.readings false false rest := by
  apply readings_spelled (.name rfl h.solid h.digit h.chars)
  have hloose : nameSticks n rest = false := by
    apply not_nameSticks
    simpa only [endsName, Bool.not_eq_true'] using hrest
  unfold nameKind
  split <;> exact hloose

/-- The signs of a parameter list are read as such before anything. -/
private theorem readings_mark {p : List Char} (hp : p ∈ [['('], [')'], [','], ['.', '.', '.']])
    (white bol : Bool) (rest : List Char) : readings white bol (p ++ rest) =
      reading .punctuator p white bol :: readings false false rest := by
  have hknown : ∀ p ∈ [['('], [')'], [','], ['.', '.', '.']],
      p ∈ punctuatorTexts ∧ p ∈ [['('], [')'], [','], ['.', '.', '.'], ['=', '=']] := by decide
  obtain ⟨htext, halone⟩ := hknown p hp
  exact readings_spelled (.punctuator htext) (not_punctuatorSticks_of_mem halone rest) white bol

namespace Spacing

/-- White space leaves what follows to be read, with a mark at its first token. -/
theorem readings (s : Spacing) (white bol : Bool) (rest : List Char) :
    ∃ white', readings white bol (s.text ++ rest) = Preproc.readings white' bol rest :=
  ⟨_, readings_gap s.inline white bol rest⟩

/-- White space may follow a name, if what is behind it may. -/
theorem endsName_append (s : Spacing) {rest : List Char} (h : endsName rest = true) :
    endsName (s.text ++ rest) = true := by
  obtain ⟨pieces, inline⟩ := s
  cases pieces with
  | nil => exact h
  | cons p pieces =>
    cases inline p List.mem_cons_self with
    | @blank c space =>
      -- No blank can be part of a name.
      have hall : [' ', '\t', '\x0b', '\x0c'].any
          (fun c => isNameChar c || ['"', '\''].contains c) = false := by decide
      have hc : c ∈ [' ', '\t', '\x0b', '\x0c'] := by simpa [isSpace, or_assoc] using space
      have hname := List.any_eq_false.1 hall c hc
      simpa [endsName, text, Trivia.text] using hname
    | comment => rfl

end Spacing

/-! ## Parameter lists -/

section Marks

variable (n p : List Char) (white bol : Bool) (value : String)

/-- What is read of a name is a name. -/
@[simp]
theorem isName_reading_name : (reading (nameKind n) n white bol).isName = true := by
  unfold nameKind
  split <;> rfl

/-- What is read of a name is no punctuator. -/
@[simp]
theorem isPunctuator_reading_name :
    (reading (nameKind n) n white bol).isPunctuator value = false := by
  unfold nameKind
  split <;> rfl

/-- What is read of a sign is no name. -/
@[simp]
theorem isName_reading_mark : (reading .punctuator p white bol).isName = false := rfl

/-- What is read of a sign is that punctuator. -/
@[simp]
theorem isPunctuator_reading_mark :
    (reading .punctuator p white bol).isPunctuator value = decide (String.ofList p = value) := rfl

/-- What is read has the text it is read from. -/
@[simp]
theorem value_reading (kind : Kind) : (reading kind p white bol).value = String.ofList p := rfl

end Marks

/-- A parameter list is read up to its closing parenthesis. -/
theorem ParamText.reads {cs : List Char} {ps : List String} (h : ParamText cs ps) (white : Bool)
    (rest : List Char) :
    ∃ ts params close,
      readings white false (cs ++ rest) = ts ++ close :: readings false false rest ∧
      (∀ t ∈ ts ++ [close], t.bol = false) ∧ close.isPunctuator ")" = true ∧
      (∀ after, readParams (ts ++ close :: after) = (params, close :: after)) ∧
      params.map (·.value) = ps := by
  -- White space shows at the token behind it only, so the flag is free again after each piece.
  induction h generalizing white with
  -- Nothing but white space before the parenthesis.
  | close s =>
    obtain ⟨w, hs⟩ := s.readings white false ([')'] ++ rest)
    rw [List.append_assoc, hs, readings_mark (by decide)]
    refine ⟨[], [], _, rfl, ?_, ?_, fun after => ?_, rfl⟩
    · simp [reading]
    · simp
    · rw [List.nil_append, readParams.eq_def]
      simp
  -- A parameter and no comma behind it.
  | @last s s' p name =>
    obtain ⟨w, hs⟩ := s.readings white false (p ++ (s'.text ++ ([')'] ++ rest)))
    obtain ⟨w', hs'⟩ := s'.readings false false ([')'] ++ rest)
    simp only [List.append_assoc]
    rw [hs, name.readings (s'.endsName_append rfl), hs', readings_mark (by decide)]
    refine ⟨[_], [reading (nameKind p) p w false], _, rfl, ?_, ?_, fun after => ?_, rfl⟩
    · simp [reading]
    · simp
    · simp [readParams]
  -- The dots take the place of a name.
  | dots s s' =>
    obtain ⟨w, hs⟩ := s.readings white false (['.', '.', '.'] ++ (s'.text ++ ([')'] ++ rest)))
    obtain ⟨w', hs'⟩ := s'.readings false false ([')'] ++ rest)
    simp only [List.append_assoc]
    rw [hs, readings_mark (by decide), hs', readings_mark (by decide)]
    refine ⟨[_], [unnamedVariable (reading .punctuator ['.', '.', '.'] w false)], _, rfl, ?_, ?_,
      fun after => ?_, rfl⟩
    · simp [reading]
    · simp
    · rw [List.singleton_append, readParams.eq_def]
      simp
  -- The dots belong to the name before them.
  | @namedDots s s' s'' p name =>
    obtain ⟨w, hs⟩ := s.readings white false
      (p ++ (s'.text ++ (['.', '.', '.'] ++ (s''.text ++ ([')'] ++ rest)))))
    obtain ⟨w', hs'⟩ := s'.readings false false (['.', '.', '.'] ++ (s''.text ++ ([')'] ++ rest)))
    obtain ⟨w'', hs''⟩ := s''.readings false false ([')'] ++ rest)
    simp only [List.append_assoc]
    rw [hs, name.readings (s'.endsName_append rfl), hs', readings_mark (by decide), hs'',
      readings_mark (by decide)]
    refine ⟨[_, _], [{ reading (nameKind p) p w false with value := String.ofList p ++ "..." }],
      _, rfl, ?_, ?_, fun after => ?_, rfl⟩
    · simp [reading]
    · simp
    · simp [readParams]
  -- A parameter and a comma, and what follows is a list again.
  | @more s s' p cs ps name params ih =>
    obtain ⟨w, hs⟩ := s.readings white false (p ++ (s'.text ++ ([','] ++ (cs ++ rest))))
    obtain ⟨w', hs'⟩ := s'.readings false false ([','] ++ (cs ++ rest))
    obtain ⟨ts, params, close, hread, hbol, hclose, hparams, hvalues⟩ := ih false
    simp only [List.append_assoc]
    rw [hs, name.readings (s'.endsName_append rfl), hs', readings_mark (by decide), hread]
    refine ⟨_ :: _ :: ts, reading (nameKind p) p w false :: params, close, rfl, ?_, hclose,
      fun after => ?_, ?_⟩
    · simpa [reading] using hbol
    · simp [readParams, hparams]
    · simp [hvalues, reading]

/-! ## Headers -/

/-- The first of the tokens does not open a parameter list. -/
def opensNothing (ts : List Token) : Bool :=
  !ts.head?.any fun t => t.isPunctuator "(" && !t.prevWhite

/-- A header is read as its name and parameters, and what is left is the body. -/
theorem Header.reads {cs : List Char} {name : String} {params : Option (List String)}
    (h : Header cs name params) {rest : List Char} (hrest : endsName rest = true)
    (white bol : Bool) :
    ∃ ts n ps, readings white bol (cs ++ rest) = ts ++ readings false false rest ∧
      (∀ t ∈ ts, t.bol = true → bol = true) ∧
      (∀ body, opensNothing body = true → readDefinition (ts ++ body) = .ok ((n, ps), body)) ∧
      n.value = name ∧ ps.map (·.map (·.value)) = params := by
  cases h with
  | object hname =>
    -- The name alone is the header, so what follows must not open a parameter list.
    refine ⟨[_], reading (nameKind cs) cs white bol, none, hname.readings hrest white bol, ?_, ?_,
      rfl, rfl⟩
    · simp [reading]
    · intro body hbody
      have hnone : readSignature? body = none := by
        cases body with
        | nil => rfl
        | cons t body =>
          rw [readSignature?, if_neg]
          simpa only [opensNothing, List.head?_cons, Option.any_some, Bool.not_eq_true',
            Bool.not_eq_true] using hbody
      simp [readDefinition, hnone]
  | @function n cs ps hname hparams =>
    obtain ⟨ts, params, close, hread, hbol, hclose, hsignature, hvalues⟩ :=
      hparams.reads false rest
    let named := reading (nameKind n) n white bol
    let opening := reading .punctuator ['('] false false
    refine ⟨named :: opening :: (ts ++ [close]), named, some params, ?_, ?_, ?_, rfl,
      congrArg some hvalues⟩
    · rw [List.append_assoc, List.append_assoc, hname.readings rfl, readings_mark (by decide),
        hread]
      rw [List.cons_append, List.cons_append, List.append_assoc, List.singleton_append]
    · simp only [List.mem_cons]
      rintro t (rfl | rfl | ht) hstart
      · exact hstart
      · cases hstart
      · rw [hbol t ht] at hstart
        cases hstart
    · intro body _
      have hread : readSignature? (opening :: (ts ++ close :: body)) = some (params, body) := by
        -- The parenthesis stands directly behind the name.
        have hopens : (opening.isPunctuator "(" && !opening.prevWhite) = true := by
          simp [opening, reading, Token.isPunctuator]
        rw [readSignature?, if_pos hopens, hsignature]
        exact if_pos hclose
      have htokens : named :: opening :: (ts ++ [close]) ++ body =
          named :: opening :: (ts ++ close :: body) := by simp
      rw [htokens, readDefinition, if_pos (isName_reading_name n white bol), hread]

end Preproc
