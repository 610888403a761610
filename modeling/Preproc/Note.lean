import Preproc.Text.Quoted

/-!
# Notes

What the preprocessor remarks on while it works. A note is the reason for a remark; its severity,
the part of the program that makes it and its wording follow from it. `Noted` is a value together
with the notes made on the way to it, oldest first.
-/

namespace Preproc

/-- How much a note matters. -/
inductive Severity where
  | debug
  | info
  | warning
  | error
  | critical
deriving DecidableEq, Repr

namespace Severity

/-- The rank of a severity; higher matters more. -/
def rank : Severity → Nat
  | debug => 10
  | info => 20
  | warning => 30
  | error => 40
  | critical => 50

/-- The name that a printed note starts with. -/
def label : Severity → String
  | debug => "DEBUG"
  | info => "INFO"
  | warning => "WARNING"
  | error => "ERROR"
  | critical => "CRITICAL"

end Severity

/-- The part of the program that makes a note. -/
inductive Channel where
  | lexer
  | macros
  | expander
  | directives
  | conditional
  | evaluator
  | preprocessor
  | batch
deriving DecidableEq, Repr

/-- The name under which a part's notes are printed. -/
def Channel.label : Channel → String
  | lexer => "cxxpp.lexer"
  | macros => "cxxpp.macros"
  | expander => "cxxpp.expander"
  | directives => "cxxpp.directives"
  | conditional => "cxxpp.conditional"
  | evaluator => "cxxpp.evaluator"
  | preprocessor => "cxxpp.preprocessor"
  | batch => "cxxpp.batch"

/-- The reasons for a note. -/
inductive Note where
  /-- The last line of a file ends in a backslash. -/
  | spliceAtEnd (file : String)
  | openComment (file : String) (line : Nat)
  | openRawString (file : String) (line : Nat)
  | openLiteral (file : String) (line : Nat)
  /-- Two tokens do not paste to one token. -/
  | badPaste (text : String)
  | pasteAtStart (name : String)
  | pasteAtEnd (name : String)
  | pasteDropped (name : String)
  /-- The argument list of an invocation is not closed. -/
  | openArguments (name : String)
  | argumentCount (name : String) (expected given : Nat)
  /-- The operator `defined` has no operand. -/
  | definedOperand
  /-- Tokens follow a complete directive; `line` is the spelling of the whole line. -/
  | extraTokens (line : String)
  | noMacroName (file : String) (line : Nat) (directive : String)
  | elifAfterElse
  | elseAfterElse
  | badHasInclude
  /-- An operator of conditions is not followed by its operand. -/
  | malformedOperator (name : String)
  /-- A condition has no value and counts as true. -/
  | notEvaluated (condition : String)
  | badDefinition (definition : String)
  /-- A problem that is reported at a line. -/
  | problem (file : String) (line : Nat) (message : String)
  /-- A header that was not found, with the line that asks for it. -/
  | missingHeader (file : String) (line : Nat) (message spelling : String)
  | notDirective (file : String) (line : Nat)
  | ignoredDirective (spelling : String)
  | badInclude (file : String) (line : Nat) (spelling : String)
  | startingFile (file : String)
  | failedFile (file message : String)
deriving DecidableEq, Repr

namespace Note

/-- The part of the program that makes the note. -/
def channel : Note → Channel
  | spliceAtEnd .. | openComment .. | openRawString .. | openLiteral .. => .lexer
  | badPaste .. | pasteAtStart .. | pasteAtEnd .. | pasteDropped .. => .macros
  | openArguments .. | argumentCount .. | definedOperand => .expander
  | extraTokens .. | noMacroName .. => .directives
  | elifAfterElse | elseAfterElse => .conditional
  | badHasInclude | malformedOperator .. | notEvaluated .. => .evaluator
  | badDefinition .. | problem .. | missingHeader .. | notDirective .. | ignoredDirective ..
  | badInclude .. => .preprocessor
  | startingFile .. | failedFile .. => .batch

/-- How much the note matters. -/
def severity : Note → Severity
  | openLiteral .. | badPaste .. | pasteAtStart .. | pasteAtEnd .. | pasteDropped ..
  | openArguments .. | argumentCount .. | definedOperand | badHasInclude | malformedOperator ..
  | notEvaluated .. | notDirective .. | ignoredDirective .. | startingFile .. => .debug
  | failedFile .. => .error
  | spliceAtEnd .. | openComment .. | openRawString .. | extraTokens .. | noMacroName ..
  | elifAfterElse | elseAfterElse | badDefinition .. | problem .. | missingHeader ..
  | badInclude .. => .warning

/-- A line number, set to the right in a column of five. -/
def lineColumn (line : Nat) : String :=
  let digits := toString line
  String.ofList (List.replicate (5 - digits.length) ' ') ++ digits

/-- The wording of the note. -/
def message : Note → String
  | spliceAtEnd file => s!"{file}: backslash-newline at end of file"
  | openComment file line => s!"{file}:{line}: unterminated comment"
  | openRawString file line => s!"{file}:{line}: unterminated raw string"
  | openLiteral file line => s!"{file}:{line}: unterminated literal"
  | badPaste text => s!"Invalid concatenation: {text}"
  | pasteAtStart name => s!"{name}: ## at start of replacement"
  | pasteAtEnd name => s!"{name}: ## at end of replacement"
  | pasteDropped name => s!"{name}: ## without operand dropped"
  | openArguments name => s!"Unterminated argument list for macro {name}"
  | argumentCount name expected given =>
    s!"Macro {name} expects {expected} argument(s) but was given {given}"
  | definedOperand => "Expected identifier after 'defined'"
  | extraTokens line => s!"Additional tokens at end of directive: {line}"
  | noMacroName file line directive =>
    s!"{file}:{line}: no macro name given in #{directive} directive"
  | elifAfterElse => "#elif after #else"
  | elseAfterElse => "#else after #else"
  | badHasInclude => "Invalid path in __has_include"
  | malformedOperator name => s!"Malformed use of '{name}'"
  | notEvaluated condition => s!"Could not evaluate '{condition}', assuming true"
  | badDefinition definition => "Ignoring invalid definition: " ++ Text.quoted definition
  | problem file line message => s!"{file}:{line}: {message}"
  | missingHeader file line message spelling =>
    s!"{file}:{line}: {message}\n" ++ lineColumn line ++ s!" | {spelling}"
  | notDirective file line => s!"{file}:{line}: not a directive"
  | ignoredDirective spelling => s!"Ignoring directive: {spelling}"
  | badInclude file line spelling => s!"{file}:{line}: invalid include directive: {spelling}"
  | startingFile file => s!"Preprocessing {file}"
  | failedFile file message => s!"{file}: {message}"

/-- Whether the note matters at least as much as `rank` tells. -/
def reaches (rank : Nat) (note : Note) : Bool :=
  rank ≤ note.severity.rank

/-- The note as one printed line. -/
def line (note : Note) : String :=
  "[" ++ note.severity.label ++ "] " ++ note.channel.label ++ ": " ++ note.message ++ "\n"

end Note

/-- A value with the notes made on the way to it, oldest first. -/
structure Noted (α : Type) where
  value : α
  notes : List Note := []
deriving Repr

namespace Noted

variable {α β : Type}

instance : Monad Noted where
  pure a := ⟨a, []⟩
  bind x f := ⟨(f x.value).value, x.notes ++ (f x.value).notes⟩

/-- Makes one note. -/
def note (n : Note) : Noted Unit :=
  ⟨(), [n]⟩

@[simp]
theorem value_pure (a : α) : (pure a : Noted α).value = a := rfl

@[simp]
theorem notes_pure (a : α) : (pure a : Noted α).notes = [] := rfl

@[simp]
theorem value_bind (x : Noted α) (f : α → Noted β) : (x >>= f).value = (f x.value).value := rfl

@[simp]
theorem notes_bind (x : Noted α) (f : α → Noted β) :
    (x >>= f).notes = x.notes ++ (f x.value).notes := rfl

@[simp]
theorem value_map (f : α → β) (x : Noted α) : (f <$> x).value = f x.value := rfl

@[simp]
theorem notes_map (f : α → β) (x : Noted α) : (f <$> x).notes = x.notes := by
  change x.notes ++ [] = x.notes
  simp

end Noted

end Preproc
