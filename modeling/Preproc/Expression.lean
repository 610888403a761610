import Preproc.Constant
import Preproc.Directive

/-!
# Constant expressions

Evaluates the expression of a condition while it is read, by precedence climbing. An operand that
the operators `&&`, `||` and `?:` do not need is read but not evaluated: an operation without a
result counts as zero there. Names have the value zero, except `true`; so do calls.

An evaluation ends with a word and the tokens after the expression, or with a fault and the tokens
from which on it was not understood. A fault in the form of the expression makes an enclosing
parenthesis or call try another reading; any other fault ends the evaluation at once.

How deeply expressions may be nested is a parameter: it depends on the host, which spends a part of
its stack of calls on each of them.
-/

namespace Preproc

/-- Why an expression has no value. -/
inductive EvalFault where
  | expectedOperand
  | expectedColon
  | noTokens
  /-- An operation has no result. -/
  | arithmetic (cause : ArithmeticError)
  /-- The code of a character does not fit a word. -/
  | codeOverflow
  /-- Expressions are nested too deeply. -/
  | tooDeep
deriving DecidableEq, Repr

namespace EvalFault

/-- Whether the fault is one of form. -/
def isForm : EvalFault → Bool
  | expectedOperand | expectedColon | noTokens => true
  | _ => false

/-- The wording of a fault. -/
def message : EvalFault → String
  | expectedOperand =>
    "Expected unary expression, expression in parens, or identifier/constant."
  | expectedColon => "Expected :."
  | noTokens => ParseError.noTokens.message
  | arithmetic cause => cause.message
  | codeOverflow => ConstantError.codeOverflow.message
  | tooDeep => "The expression is nested too deeply."

end EvalFault

/-- How an evaluation ends, with the tokens that remain. -/
inductive Evaluated where
  | value (w : Word) (rest : List Token)
  | fault (f : EvalFault) (rest : List Token)
deriving Repr

/-- The operators that stand between two operands. -/
inductive Infix where
  | conditional
  | logicalOr
  | logicalAnd
  | arithmetic (op : BinaryOp)
deriving DecidableEq, Repr

/-- The operators that stand before an operand. -/
def prefixOperators : List (String × UnaryOp) :=
  [("-", .negate), ("+", .plus), ("!", .not), ("~", .complement)]

/-- The precedence of the operand of an operator that stands before it. -/
def prefixPrecedence : Nat := 12

/-- The operators that stand between two operands, with their precedence; higher binds tighter. -/
def infixOperators : List (String × Infix × Nat) :=
  [("?", .conditional, 1), ("||", .logicalOr, 2), ("&&", .logicalAnd, 3),
   ("|", .arithmetic .bitOr, 4), ("^", .arithmetic .bitXor, 5), ("&", .arithmetic .bitAnd, 6),
   ("==", .arithmetic .equal, 7), ("!=", .arithmetic .notEqual, 7),
   ("<", .arithmetic .less, 8), ("<=", .arithmetic .lessEqual, 8),
   (">", .arithmetic .greater, 8), (">=", .arithmetic .greaterEqual, 8),
   ("<<", .arithmetic .shiftLeft, 9), (">>", .arithmetic .shiftRight, 9),
   ("+", .arithmetic .add, 10), ("-", .arithmetic .subtract, 10),
   ("*", .arithmetic .multiply, 11), ("/", .arithmetic .divide, 11),
   ("%", .arithmetic .remainder, 11)]

/-- The operator before an operand that a token is. -/
def prefixOperator? (t : Token) : Option UnaryOp :=
  if t.kind = .punctuator then prefixOperators.lookup t.value else none

/-- The operator between two operands that a token is, with its precedence. -/
def infixOperator? (t : Token) : Option (Infix × Nat) :=
  if t.kind = .punctuator then infixOperators.lookup t.value else none

namespace Expression

/-- Evaluates an inner expression: whether it is only read, the least precedence of its operators,
and the tokens to read. -/
abbrev Inner := Bool → Nat → List Token → Evaluated

/-- Applies an operator; where nothing is evaluated an operation without a result gives zero. -/
def apply (skip : Bool) (op : BinaryOp) (a b : Word) : Except ArithmeticError Word :=
  match Word.binary op a b with
  | .ok w => .ok w
  | .error e => if skip then .ok (.ofInt 0) else .error e

/-- Reads expressions separated by commas, as far as they can be read, after a first one. `fuel`
bounds the number of commas. -/
def readMore (inner : Inner) : Nat → List Token → Except (EvalFault × List Token) (List Token)
  | 0, ts => .ok ts
  | fuel + 1, ts =>
    match ts with
    | [] => .ok []
    | t :: rest =>
      if t.isPunctuator "," then
        match inner true 0 rest with
        | .value _ last => readMore inner fuel last
        | .fault f last => if f.isForm then .ok (t :: rest) else .error (f, last)
      else .ok (t :: rest)

/-- Reads a list of expressions separated by commas, which may be empty, without evaluating them. -/
def readList (inner : Inner) (ts : List Token) : Except (EvalFault × List Token) (List Token) :=
  match inner true 0 ts with
  | .value _ rest => readMore inner rest.length rest
  | .fault f rest => if f.isForm then .ok ts else .error (f, rest)

/-- Reads the argument list of a call; `none` if it is none. -/
def readCall (inner : Inner) : List Token → Except (EvalFault × List Token) (Option (List Token))
  | [] => .ok none
  | p :: rest =>
    if p.isPunctuator "(" then
      match readList inner rest with
      | .error e => .error e
      | .ok [] => .ok none
      | .ok (q :: last) => .ok (if q.isPunctuator ")" then some last else none)
    else .ok none

/-- Evaluates a constant, a call or a name. -/
def term (inner : Inner) : List Token → Evaluated
  | [] => .fault .expectedOperand []
  | t :: rest =>
    match t.kind with
    | .number =>
      match Constant.integer t.value with
      | .ok w => .value w rest
      | .error _ => .fault .expectedOperand (t :: rest)
    | .character =>
      match Constant.character t.value with
      | .ok w => .value w rest
      -- This is no fault of form, so no other reading is tried.
      | .error .codeOverflow => .fault .codeOverflow rest
      | .error _ => .fault .expectedOperand (t :: rest)
    | .identifier | .keyword =>
      match readCall inner rest with
      | .error (f, last) => .fault f last
      | .ok (some last) => .value (.ofInt 0) last
      -- Not a call after all: the name stands alone, and the parenthesis is left to the caller.
      | .ok none => .value (.ofBool (t.value = "true")) rest
    | _ => .fault .expectedOperand (t :: rest)

/-- Evaluates an expression in parentheses, which starts with `t`. -/
def parenthesized (inner : Inner) (skip : Bool) (t : Token) (rest : List Token) : Evaluated :=
  match inner skip 0 rest with
  | .value w (q :: last) =>
    if q.isPunctuator ")" then .value w last else .fault .expectedOperand (t :: rest)
  | .value _ [] => .fault .expectedOperand (t :: rest)
  | .fault f last => if f.isForm then .fault .expectedOperand (t :: rest) else .fault f last

/-- Evaluates an operand: one with an operator before it, one in parentheses, or a term. -/
def operand (inner : Inner) (skip : Bool) : List Token → Evaluated
  | [] => .fault .expectedOperand []
  | t :: rest =>
    match prefixOperator? t with
    | some op =>
      match inner skip prefixPrecedence rest with
      | .value w last => .value (Word.unary op w) last
      | .fault f last => .fault f last
    | none =>
      if t.isPunctuator "(" then parenthesized inner skip t rest else term inner (t :: rest)

/-- Evaluates the two branches of `?:` after the condition. -/
def branches (inner : Inner) (skip : Bool) (condition : Word) (ts : List Token) : Evaluated :=
  match inner (skip || !condition.isTrue) 0 ts with
  | .fault f rest => .fault f rest
  | .value _ [] => .fault .noTokens []
  | .value a (c :: rest) =>
    if c.isPunctuator ":" then
      match inner (skip || condition.isTrue) 1 rest with
      | .fault f last => .fault f last
      -- Both branches have the common type, whichever is taken.
      | .value b last =>
        .value (if condition.isTrue then a.convert b.unsigned else b.convert a.unsigned) last
    else .fault .expectedColon (c :: rest)

/-- Evaluates the right operand of an operator, and applies it. -/
def rightOperand (inner : Inner) (skip : Bool) (op : Infix) (prec : Nat) (left : Word)
    (ts : List Token) : Evaluated :=
  match op with
  | .conditional => branches inner skip left ts
  | .logicalAnd =>
    match inner (skip || !left.isTrue) (prec + 1) ts with
    | .value w rest => .value (.ofBool (left.isTrue && w.isTrue)) rest
    | .fault f rest => .fault f rest
  | .logicalOr =>
    match inner (skip || left.isTrue) (prec + 1) ts with
    | .value w rest => .value (.ofBool (left.isTrue || w.isTrue)) rest
    | .fault f rest => .fault f rest
  | .arithmetic op =>
    match inner skip (prec + 1) ts with
    | .value w rest =>
      match apply skip op left w with
      | .ok r => .value r rest
      | .error e => .fault (.arithmetic e) rest
    | .fault f rest => .fault f rest

/-- Applies the operators of precedence `least` or higher that follow the operand `left`. `fuel`
bounds their number. -/
def climb (inner : Inner) (skip : Bool) (least : Nat) : Nat → Word → List Token → Evaluated
  | 0, left, ts => .value left ts
  | fuel + 1, left, ts =>
    match ts with
    | [] => .value left []
    | t :: rest =>
      match infixOperator? t with
      | none => .value left (t :: rest)
      | some (op, prec) =>
        if prec < least then .value left (t :: rest)
        else
          match rightOperand inner skip op prec left rest with
          | .value w last => climb inner skip least fuel w last
          | .fault f last => .fault f last

/-- Evaluates the expression at the start of a list of tokens, nested at most `nesting` deep. -/
def eval : (nesting : Nat) → Inner
  | 0, _, _, ts => .fault .tooDeep ts
  | nesting + 1, skip, least, ts =>
    match operand (eval nesting) skip ts with
    | .fault f rest => .fault f rest
    | .value w rest => climb (eval nesting) skip least rest.length w rest

/-- Evaluates the expression at the start of a list of tokens, nested at most `limit` deep. -/
def start (limit : Nat) (ts : List Token) : Evaluated :=
  eval limit false 0 ts

/-- Why a whole expression has no truth value. -/
inductive Failure where
  /-- It is ill-formed, or an operation has no result. -/
  | notEvaluated
  | codeOverflow
  | tooDeep
deriving DecidableEq, Repr

/-- The wording of a failure. -/
def Failure.message : Failure → String
  | notEvaluated => "Could not evaluate expression."
  | codeOverflow => EvalFault.codeOverflow.message
  | tooDeep => EvalFault.tooDeep.message

/-- Whether an expression that takes all tokens is true. It may be nested at most `limit` deep. -/
def truthWithin (limit : Nat) (ts : List Token) : Except Failure Bool :=
  match start limit ts with
  | .value w [] => .ok w.isTrue
  | .value _ _ => .error .notEvaluated
  | .fault .codeOverflow _ => .error .codeOverflow
  | .fault .tooDeep _ => .error .tooDeep
  | .fault _ _ => .error .notEvaluated

end Expression

end Preproc
