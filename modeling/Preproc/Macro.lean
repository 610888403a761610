import Preproc.Macro.Operators
import Preproc.Text.Blank

/-!
# Macros

A macro is object-like, function-like, or predefined with a value that depends on where it is used.
A definition's replacement list is put into normal form once: runs of the pasting operator count as
one, pasting operators at either end are dropped, and operands that are no parameters are pasted.
-/

namespace Preproc

/-- The parameters of a function-like macro. The last of a variadic macro takes all remaining
arguments. -/
structure Signature where
  params : List String
  variadic : Bool := false
deriving DecidableEq, Repr

namespace Signature

/-- The name under which the replacement list refers to a variable argument that has no name. -/
def variableArguments : String := "__VA_ARGS__"

/-- The signature with parameters spelled `ps`; three dots at the end of the last make it
variadic. -/
def ofSpellings (ps : List String) : Signature :=
  match ps.getLast? with
  | none => ⟨ps, false⟩
  | some last =>
    if last = "..." then ⟨ps.dropLast ++ [variableArguments], true⟩
    else if ['.', '.', '.'].isSuffixOf last.toList then
      ⟨ps.dropLast ++ [String.ofList (last.toList.take (last.length - 3))], true⟩
    else ⟨ps, false⟩

/-- How the parameters are spelled in a definition. -/
def spellings (sig : Signature) : List String :=
  if sig.variadic then
    match sig.params.getLast? with
    | none => sig.params
    | some last =>
      sig.params.dropLast ++ [if last = variableArguments then "..." else last ++ "..."]
  else sig.params

/-- The position of the parameter that a token names. -/
def index? (sig : Signature) (t : Token) : Option Nat :=
  if t.isName then sig.params.findIdx? (· = t.value) else none

/-- Whether a token names a parameter. -/
def isParam (sig : Signature) (t : Token) : Bool :=
  (sig.index? t).isSome

/-- Whether the macro can be invoked with `count` arguments. -/
def accepts (sig : Signature) (count : Nat) : Bool :=
  if sig.variadic then sig.params.length ≤ count + 1 else count = sig.params.length

/-- Whether `t`, followed by `next`, is the stringizing operator and its parameter. -/
def isStringize (sig : Signature) (t : Token) (next : Option Token) : Bool :=
  t.isHash && next.any sig.isParam

/-- Whether parameter `i` occurs in a replacement list outside of the operands of both operators;
`prev` is the token before the list. -/
def occursPlainly (sig : Signature) (i : Nat) (prev : Option Token) : List Token → Bool
  | [] => false
  | t :: rest =>
    (sig.index? t = some i && !prev.any Token.isPaste && !prev.any Token.isHash
      && !rest.head?.any Token.isPaste)
    || sig.occursPlainly i (some t) rest

/-- For each parameter, whether its argument is expanded before it is substituted. -/
def plainParams (sig : Signature) (body : List Token) : List Bool :=
  (List.range sig.params.length).map fun i => sig.occursPlainly i none body

end Signature

/-! ## The normal form of a replacement list -/

/-- Keeps the first of each run of pasting operators; `inRun` if one stands before the list. -/
def collapsePastes (inRun : Bool) : List Token → List Token
  | [] => []
  | t :: ts =>
    if inRun && t.isPaste then collapsePastes true ts else t :: collapsePastes t.isPaste ts

/-- Drops the pasting operators at both ends. -/
def trimPastes (name : String) (body : List Token) : Noted (List Token) :=
  let tail := body.dropWhile Token.isPaste
  let core := (tail.reverse.dropWhile Token.isPaste).reverse
  { value := core
    notes := List.replicate (body.length - tail.length) (.pasteAtStart name)
      ++ List.replicate (tail.length - core.length) (.pasteAtEnd name) }

/-- Drops the white space before the first token. -/
def dropLeadingWhite : List Token → List Token
  | [] => []
  | t :: ts => t.withWhite false :: ts

/-- Pastes the operands that are no parameters. `sig` is absent for an object-like macro; `before`
holds the tokens already in normal form, newest first. -/
def pasteConstants (sig : Option Signature) (before : List Token) (body : List Token) :
    Noted (List Token) :=
  match body with
  | [] => pure before.reverse
  | t :: rest =>
    if t.isPaste then
      match before, rest with
      | left :: older, right :: more =>
        if sig.any (·.isParam left) || sig.any (·.isParam right)
            || sig.any (·.isStringize right more.head?) then
          -- The operands are not known before the macro is invoked.
          pasteConstants sig (t :: left :: older) (right :: more)
        else do
          let joined ← paste left right
          pasteConstants sig (joined.reverse ++ older) more
      | older, more => pasteConstants sig older more
    else if sig.any (·.isStringize t rest.head?) then
      pasteConstants sig ((rest.take 1).reverse ++ t :: before) (rest.drop 1)
    else pasteConstants sig (t :: before) rest
termination_by body.length
decreasing_by all_goals (simp only [List.length_cons, List.length_drop]; omega)

/-- What is left of a replacement list once runs of pasting operators count as one and those at the
ends are dropped. -/
def trimmedBody (name : String) (body : List Token) : Noted (List Token) :=
  dropLeadingWhite <$> trimPastes name (collapsePastes false body)

/-! ## Macros -/

/-- What a predefined macro stands for. -/
inductive Builtin where
  /-- The line of the use. -/
  | line
  /-- The file of the use. -/
  | file
  /-- A fixed string literal. -/
  | stamp (literal : String)
  /-- The number of earlier uses. -/
  | counter
deriving DecidableEq, Repr

/-- A macro definition. -/
inductive Macro where
  | object (name : String) (body : List Token)
  /-- A function-like macro; `plain` tells for each parameter whether its argument is expanded
  before it is substituted. -/
  | function (name : String) (sig : Signature) (plain : List Bool) (body : List Token)
  | builtin (name : String) (value : Builtin)
deriving DecidableEq, Repr

namespace Macro

/-- The macro's name. -/
def name : Macro → String
  | object name _ | function name .. | builtin name _ => name

/-- The replacement list in normal form. -/
def body : Macro → List Token
  | object _ body | function _ _ _ body => body
  | builtin .. => []

/-- The signature of a function-like macro. -/
def signature? : Macro → Option Signature
  | function _ sig .. => some sig
  | _ => none

/-- Whether the macro has a parameter list. -/
def isFunctionLike (m : Macro) : Bool :=
  m.signature?.isSome

/-- The names of the parameters. -/
def params (m : Macro) : List String :=
  m.signature?.elim [] (·.params)

/-- Whether the last parameter takes all remaining arguments. -/
def isVariadic (m : Macro) : Bool :=
  m.signature?.any (·.variadic)

/-- For each parameter, whether its argument is expanded before it is substituted. -/
def plainParams : Macro → List Bool
  | function _ _ plain _ => plain
  | _ => []

/-- The position of the parameter that a token names. -/
def index? (m : Macro) (t : Token) : Option Nat :=
  m.signature?.bind (·.index? t)

/-- Whether the macro can be invoked with `count` arguments. -/
def accepts (m : Macro) (count : Nat) : Bool :=
  m.signature?.elim (count = 0) (·.accepts count)

/-- The object-like macro `name` with the replacement list `body`. -/
def ofBody (name : String) (body : List Token) : Noted Macro := do
  let trimmed ← trimmedBody name body
  Macro.object name <$> pasteConstants none [] trimmed

/-- The function-like macro `name` with parameters spelled `params`. -/
def ofFunction (name : String) (params : List String) (body : List Token) : Noted Macro := do
  let sig := Signature.ofSpellings params
  let trimmed ← trimmedBody name body
  -- Which parameters stand outside of operands is decided before constants are pasted.
  Macro.function name sig (sig.plainParams trimmed) <$> pasteConstants (some sig) [] trimmed

/-- The macro that a definition stands for; it is function-like if there is a parameter list. -/
def ofDefinition (name : String) (params : Option (List String)) (body : List Token) :
    Noted Macro :=
  match params with
  | none => ofBody name body
  | some params => ofFunction name params body

/-- The definition as text that reads back as the macro. -/
def spelling (m : Macro) : String :=
  let replacement := " ".intercalate (m.body.map (·.value))
  let text := match m with
    | object name _ => name ++ " " ++ replacement
    | function name sig _ _ => name ++ "(" ++ ",".intercalate sig.spellings ++ ") " ++ replacement
    | builtin name _ => name ++ " <built-in>"
  String.ofList (Text.dropTrailingBlanks text.toList)

end Macro

end Preproc
