import Preproc.Directive.Grammar
import Preproc.Expression
import Preproc.Token.DefinedOperand

/-!
# Conditions

The operators `defined` and `__has_include` are answered before a condition is expanded, so that
their operands are not. `splitQueries` finds them; who asks decides how they are answered. A
condition that has no value counts as true.
-/

namespace Preproc

/-- A question that a condition asks. -/
inductive Query where
  /-- Whether a macro goes by the name. -/
  | defined (name : String)
  /-- Whether a header is found. -/
  | header (name : HeaderName)
deriving DecidableEq, Repr

/-- A part of a condition. -/
inductive Clause where
  | token (t : Token)
  /-- A question, in the place of its operator `site`. -/
  | query (site : Token) (q : Query)
deriving DecidableEq, Repr

/-- The operand of `__has_include` at the start of the tokens: a header name that fills the
parentheses. -/
def headerOperand? : List Token → Noted (Option (HeaderName × Nat))
  | [] => pure none
  | t :: rest =>
    let inside := rest.takeWhile (!·.isPunctuator ")")
    if t.isPunctuator "(" && inside.length < rest.length then
      match readHeaderName inside with
      | .ok (name, []) => pure (some (name, inside.length + 2))
      -- Something follows the header name inside the parentheses.
      | .ok _ => pure none
      | .error _ => ⟨none, [.badHasInclude]⟩
    else pure none

/-- The question that the operator `t` asks about the tokens after it, and how many it takes. -/
def query? (t : Token) (rest : List Token) : Noted (Option (Query × Nat)) :=
  if t.value = "defined" then
    pure ((definedOperand? rest).map fun (name, n) => (.defined name, n))
  else (fun r => r.map fun (name, n) => (.header name, n)) <$> headerOperand? rest

/-- Whether a token is an operator that asks a question. -/
def isQueryOperator (t : Token) : Bool :=
  t.isName && (t.value = "defined" || t.value = "__has_include")

/-- Finds the questions of a condition. An operator without an operand stays a token. -/
def splitQueries (ts : List Token) : Noted (List Clause) :=
  match ts with
  | [] => pure []
  | t :: rest =>
    if isQueryOperator t then do
      match ← query? t rest with
      | some (q, n) => (.query t q :: ·) <$> splitQueries (rest.drop n)
      | none =>
        Noted.note (.malformedOperator t.value)
        (.token t :: ·) <$> splitQueries rest
    else (.token t :: ·) <$> splitQueries rest
termination_by ts.length
decreasing_by all_goals (simp only [List.length_cons, List.length_drop]; omega)

/-- The number that stands for the answer to a question asked at `site`. -/
def answerToken (site : Token) (answer : Bool) : Token :=
  { kind := .number
    value := if answer then "1" else "0"
    file := site.file
    line := site.line
    col := site.col
    prevWhite := site.prevWhite }

/-- Answers the questions one after the other; answering may change what is asked. -/
def answerQueries {σ : Type} (answer : σ → Query → Bool × σ) (s : σ) :
    List Clause → List Token × σ
  | [] => ([], s)
  | .token t :: rest =>
    let (ts, s') := answerQueries answer s rest
    (t :: ts, s')
  | .query site q :: rest =>
    let (b, s₁) := answer s q
    let (ts, s') := answerQueries answer s₁ rest
    (answerToken site b :: ts, s')

/-- Whether a condition holds once it is expanded. One that cannot be evaluated holds, also if it is
nested more than `limit` deep; only a character code that does not fit a word is an error. -/
def holds (limit : Nat) (ts : List Token) : Noted (Except Expression.Failure Bool) :=
  match Expression.truthWithin limit ts with
  | .ok b => pure (.ok b)
  | .error .codeOverflow => pure (.error .codeOverflow)
  | .error _ => ⟨.ok true, [.notEvaluated (" ".intercalate (ts.map (·.value)))]⟩

end Preproc
