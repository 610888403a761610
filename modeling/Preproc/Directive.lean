import Preproc.Macro

/-!
# Directives

A directive is what a line that starts with `#` asks for.
-/

namespace Preproc

/-- The name of a header between quotes or angle brackets. -/
structure HeaderName where
  path : String
  /-- Whether the name stands between angle brackets. -/
  system : Bool
deriving DecidableEq, Repr

/-- The name with its quotes or brackets. -/
def HeaderName.spelling (h : HeaderName) : String :=
  if h.system then "<" ++ h.path ++ ">" else "\"" ++ h.path ++ "\""

/-- What an include directive names: a header, or tokens that expand to one. -/
inductive IncludeTarget where
  | header (name : HeaderName)
  | computed (tokens : List Token)
deriving DecidableEq, Repr

/-- A directive and its operands. -/
inductive Directive where
  | define (name : Token) (params : Option (List Token)) (body : List Token)
  | undef (name : Token)
  /-- Inclusion of a header; `once` if the header is never to be included again. -/
  | inclusion (target : IncludeTarget) (once : Bool)
  | pragma (args : List Token)
  | ifTrue (condition : List Token)
  | elifTrue (condition : List Token)
  | ifdef (name : Option Token)
  | ifndef (name : Option Token)
  | elifdef (name : Option Token)
  | elifndef (name : Option Token)
  | otherwise
  | endif
  /-- A directive that is empty or not known. -/
  | other
deriving DecidableEq, Repr

namespace Directive

/-- The word by which a directive goes. -/
def label : Directive → String
  | define .. => "define"
  | undef .. => "undef"
  | inclusion .. => "include"
  | pragma .. => "pragma"
  | ifTrue .. => "if"
  | elifTrue .. => "elif"
  | ifdef .. => "ifdef"
  | ifndef .. => "ifndef"
  | elifdef .. => "elifdef"
  | elifndef .. => "elifndef"
  | otherwise => "else"
  | endif => "endif"
  | other => "other"

/-- Whether the directive opens, continues or closes a conditional group. -/
def isConditional : Directive → Bool
  | ifTrue .. | elifTrue .. | ifdef .. | ifndef .. | elifdef .. | elifndef .. | otherwise
  | endif => true
  | _ => false

/-- Whether a test for a name that is to be defined holds; without a name it does not. -/
def testDefined (isDefined : String → Bool) (name : Option Token) : Bool :=
  name.any fun t => isDefined t.value

/-- Whether a test for a name that is not to be defined holds; without a name it does not. -/
def testUndefined (isDefined : String → Bool) (name : Option Token) : Bool :=
  name.any fun t => !isDefined t.value

/-- Whether a pragma asks for its file to be included only once. -/
def asksOnce (args : List Token) : Bool :=
  args.head?.any (·.value = "once")

end Directive

/-- A line that starts with `#`, and the directive that it holds. -/
structure DirectiveLine where
  tokens : List Token
  directive : Directive
deriving DecidableEq, Repr

namespace DirectiveLine

/-- The file that holds the line. -/
def file (d : DirectiveLine) : String :=
  d.tokens.head?.elim "" (·.file)

/-- The physical line on which the directive starts. -/
def line (d : DirectiveLine) : Nat :=
  d.tokens.head?.elim 0 (·.line)

/-- The line as it is written, white space as single spaces. -/
def spelling (d : DirectiveLine) : String :=
  Token.spelling d.tokens

end DirectiveLine

/-- Why tokens do not form what is asked for. -/
inductive ParseError where
  | noTokens
  | expectedName
  /-- The line is not the directive `word`. -/
  | notThe (word : String)
  | notHeaderName
  | notDirective
deriving DecidableEq, Repr

/-- The wording of a refusal. -/
def ParseError.message : ParseError → String
  | noTokens => "No tokens left for cursor to traverse"
  | expectedName => "Expected an identifier."
  | notThe word =>
    if ["ifdef", "ifndef", "elifdef", "elifndef"].contains word then s!"Invalid {word} directive"
    else s!"Invalid {word} directive."
  | notHeaderName => "Invalid path."
  | notDirective => "Not a directive."

end Preproc
