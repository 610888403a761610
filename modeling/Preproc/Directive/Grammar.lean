import Preproc.Directive

/-!
# Reading directives

The productions of the grammar take the tokens that remain and give what they read with the tokens
after it. A line is read by the first production that takes it; `parseLineWith` leaves the order of
the productions open.
-/

namespace Preproc

/-! ## Macro definitions -/

/-- A variable parameter without a name, in the place of its three dots. -/
def unnamedVariable (dots : Token) : Token :=
  { kind := .identifier
    value := "..."
    file := dots.file
    line := dots.line
    col := dots.col
    prevWhite := dots.prevWhite }

/-- Reads parameters up to the first token that cannot continue the list. Three dots, after a name
or alone, end it; a comma may stand after the last. A name that is plain never ends the list by its
own spelling: no name that is read from a text ends with a dot. -/
def readParams : List Token → List Token × List Token
  | [] => ([], [])
  | t :: rest =>
    if t.isPunctuator "..." then ([unnamedVariable t], rest)
    else if t.isName then
      match rest with
      | [] => ([t], [])
      | d :: more =>
        if d.isPunctuator "..." then ([{ t with value := t.value ++ "..." }], more)
        else if d.isPunctuator "," then
          let (ps, last) := readParams more
          (t :: ps, last)
        else ([t], d :: more)
    else ([], t :: rest)

/-- Reads a parameter list between parentheses, the first of which follows without white space. -/
def readSignature? : List Token → Option (List Token × List Token)
  | [] => none
  | t :: rest =>
    if t.isPunctuator "(" && !t.prevWhite then
      match readParams rest with
      | (ps, u :: last) => if u.isPunctuator ")" then some (ps, last) else none
      | (_, []) => none
    else none

/-- Reads the name and the parameter list of a definition; an ill-formed parameter list belongs to
the replacement list. -/
def readDefinition : List Token → Except ParseError ((Token × Option (List Token)) × List Token)
  | [] => .error .noTokens
  | t :: rest =>
    if t.isName then
      match readSignature? rest with
      | some (ps, body) => .ok ((t, some ps), body)
      | none => .ok ((t, none), rest)
    else .error .expectedName

/-- The tokens without an equals sign that directly follows the name or the parameters. -/
def dropEquals : List Token → List Token
  | [] => []
  | t :: rest => if t.isPunctuator "=" && !t.prevWhite then rest else t :: rest

/-- The macro that a text of the form `NAME`, `NAME value`, `NAME(params) value` or `NAME=value`
defines. -/
def Macro.ofText (text : String) : Noted (Except ParseError Macro) := do
  let lexed ← lexText "<command line>" text.toList
  let ts ← lexed.all
  match readDefinition ts with
  | .error e => pure (.error e)
  | .ok ((name, params), rest) =>
    .ok <$> Macro.ofDefinition name.value (params.map (·.map (·.value))) (dropEquals rest)

/-! ## Header names -/

/-- Reads the tokens between angle brackets. -/
def readBracketed? : List Token → Option (List Token × List Token)
  | [] => none
  | t :: rest =>
    if t.isPunctuator "<" then
      match rest.dropWhile (!·.isPunctuator ">") with
      | [] => none
      | _ :: last => some (rest.takeWhile (!·.isPunctuator ">"), last)
    else none

/-- Reads a header name in quotes: a string literal without an encoding that is not empty. -/
def readQuotedHeader? : List Token → Option (HeaderName × List Token)
  | [] => none
  | t :: rest =>
    if t.kind = .string && t.encoding.isEmpty && !t.content.isEmpty then
      some (⟨String.ofList t.content, false⟩, rest)
    else none

/-- Reads a header name. Empty angle brackets are passed over. -/
def readHeaderName (ts : List Token) : Except ParseError (HeaderName × List Token) :=
  let quotedFrom := fun rest => match readQuotedHeader? rest with
    | some r => .ok r
    | none => .error .notHeaderName
  match readBracketed? ts with
  | some (path, rest) =>
    if Token.spelling path ≠ "" then .ok (⟨Token.spelling path, true⟩, rest) else quotedFrom rest
  | none => quotedFrom ts

/-! ## Lines -/

/-- The forms that a directive can have. -/
inductive Production where
  | ifdef
  | ifndef
  | elifdef
  | elifndef
  | ifTrue
  | elifTrue
  | otherwise
  | endif
  | define
  | undef
  | inclusion
  | pragma
deriving DecidableEq, Repr

namespace Production

/-- The words with which the form starts. -/
def words : Production → List String
  | ifdef => ["ifdef"]
  | ifndef => ["ifndef"]
  | elifdef => ["elifdef"]
  | elifndef => ["elifndef"]
  | ifTrue => ["if"]
  | elifTrue => ["elif"]
  | otherwise => ["else"]
  | endif => ["endif"]
  | define => ["define"]
  | undef => ["undef"]
  | inclusion => ["include", "include_next", "import"]
  | pragma => ["pragma"]

/-- The word that names the form in messages. -/
def label (p : Production) : String :=
  p.words.headD ""

/-- Reads the name that a test asks about; a test without one is noted. -/
def readTest (word : String) (line rest : List Token) : Noted (Option Token × List Token) :=
  let first := line.head?
  let missing := Note.noMacroName (first.elim "" (·.file)) (first.elim 0 (·.line)) word
  match rest with
  | [] => ⟨(none, []), [missing]⟩
  | t :: last => if t.isName then pure (some t, last) else ⟨(none, t :: last), [missing]⟩

/-- Reads the operands of an include directive. -/
def readTarget? (rest : List Token) : Option (IncludeTarget × List Token) :=
  match readHeaderName rest with
  | .ok (name, last) => some (.header name, last)
  | .error _ => if rest.isEmpty then none else some (.computed rest, [])

/-- Reads what follows the word of a directive in `line`. -/
def readOperands (p : Production) (line : List Token) (word : Token) (rest : List Token) :
    Noted (Option (Directive × List Token)) :=
  match p with
  | ifdef => (fun (n, last) => some (.ifdef n, last)) <$> readTest p.label line rest
  | ifndef => (fun (n, last) => some (.ifndef n, last)) <$> readTest p.label line rest
  | elifdef => (fun (n, last) => some (.elifdef n, last)) <$> readTest p.label line rest
  | elifndef => (fun (n, last) => some (.elifndef n, last)) <$> readTest p.label line rest
  | ifTrue => pure (some (.ifTrue rest, []))
  | elifTrue => pure (some (.elifTrue rest, []))
  | otherwise => pure (some (.otherwise, rest))
  | endif => pure (some (.endif, rest))
  | define =>
    match readDefinition rest with
    | .ok ((name, params), body) => pure (some (.define name params body, []))
    | .error _ => pure none
  | undef =>
    match rest with
    | t :: last => pure (if t.isName then some (.undef t, last) else none)
    | [] => pure none
  | inclusion =>
    pure ((readTarget? rest).map fun (target, last) =>
      (.inclusion target (word.value = "import"), last))
  | pragma => pure (some (.pragma rest, []))

/-- Reads a directive of this form from the tokens of `line` that remain. -/
def read? (p : Production) (line : List Token) :
    List Token → Noted (Option (Directive × List Token))
  | [] => pure none
  | word :: rest =>
    if word.isName && p.words.contains word.value then p.readOperands line word rest else pure none

end Production

/-- The forms that are read everywhere. -/
def conditionalProductions : List Production :=
  [.ifdef, .ifndef, .elifdef, .elifndef, .ifTrue, .elifTrue, .otherwise, .endif]

/-- The forms that are only read outside of skipped groups. -/
def otherProductions : List Production :=
  [.define, .undef, .inclusion, .pragma]

/-- Reads a directive by the first of the productions that takes it; tokens that remain are noted.
A line that none takes holds a directive that is not known. -/
def readDirective (line : List Token) (rest : List Token) :
    List Production → Noted (Directive × List Token)
  | [] => pure (.other, rest)
  | p :: ps => do
    match ← p.read? line rest with
    | none => readDirective line rest ps
    | some (d, last) =>
      if !last.isEmpty then
        Noted.note (.extraTokens (String.join (line.map (·.value))))
      pure (d, last)

/-- Reads a line, with the given productions, and gives the tokens that remain. -/
def parseLineWith (ps : List Production) (line : List Token) :
    Noted (Except ParseError (DirectiveLine × List Token)) :=
  match line with
  | [] => pure (.error .notDirective)
  | t :: rest =>
    if t.isHash then (fun (d, last) => .ok (⟨line, d⟩, last)) <$> readDirective line rest ps
    else pure (.error .notDirective)

/-- Reads a line. Within a skipped group only conditional directives are known. -/
def parseLine (conditionalOnly : Bool) (line : List Token) :
    Noted (Except ParseError (DirectiveLine × List Token)) :=
  parseLineWith
    (if conditionalOnly then conditionalProductions else conditionalProductions ++ otherProductions)
    line

end Preproc
