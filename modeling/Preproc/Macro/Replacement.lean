import Preproc.Macro

/-!
# Substituting arguments

What an invocation is replaced by. The replacement list is read from left to right: an operand of
either operator stands for the argument as written, any other parameter for the expanded argument.
An operand without tokens is a placemarker, written `none`: pasting with it changes nothing, and it
is dropped at the end.
-/

namespace Preproc

/-- An argument of an invocation: as written, and fully expanded. -/
structure Argument where
  raw : List Token
  expanded : List Token
deriving DecidableEq, Repr

/-- The tokens, with the white space before the first taken from `t`. -/
def withWhiteOf (t : Token) : List Token → List Token
  | [] => []
  | u :: us => u.withWhite t.prevWhite :: us

/-- The tokens as operands of pasting: a placemarker if there are none. -/
def operands : List Token → List (Option Token)
  | [] => [none]
  | ts => ts.map some

namespace Signature

/-- The operand that starts with the token `t` of a replacement list, before `next`: its tokens and
how many further tokens it takes. There is none if an argument is missing. -/
def operand? (sig : Signature) (args : List Argument) (t : Token) (next : Option Token) :
    Option (List Token × Nat) :=
  if sig.isStringize t next then
    (next.bind sig.index?).bind fun i => args[i]?.map fun a => ([stringize a.raw t], 1)
  else
    match sig.index? t with
    | some i => args[i]?.map fun a => (withWhiteOf t a.raw, 0)
    | none => some ([t], 0)

/-- Pastes the operand `right` to the last token before it. -/
def pasteOperand (last : Option Token) (right : List Token) : Noted (List (Option Token)) :=
  match last, right with
  | none, right => pure (operands right)
  | some left, [] => pure [some left]
  | some left, r :: rs => (fun joined => (joined ++ rs).map some) <$> paste left r

/-- Substitutes arguments in what remains of a replacement list, after the tokens `before`, newest
first. There is no result if an argument is missing. -/
def substitute (sig : Signature) (name : String) (args : List Argument)
    (before : List (Option Token)) (body : List Token) : Noted (Option (List (Option Token))) :=
  match body with
  | [] => pure (some before.reverse)
  | t :: rest =>
    if t.isPaste then
      match before, rest with
      | last :: older, r :: more =>
        match sig.operand? args r more.head? with
        | none => pure none
        | some (right, extra) => do
          let joined ← pasteOperand last right
          sig.substitute name args (joined.reverse ++ older) (more.drop extra)
      -- There is nothing on one side of the operator.
      | older, more => do
        Noted.note (.pasteDropped name)
        sig.substitute name args older more
    -- An operand of either operator stands for the argument as written.
    else if sig.isStringize t rest.head? || (sig.isParam t && rest.head?.any Token.isPaste) then
      match sig.operand? args t rest.head? with
      | none => pure none
      | some (ts, extra) =>
        sig.substitute name args ((operands ts).reverse ++ before) (rest.drop extra)
    else
      match sig.index? t with
      | none => sig.substitute name args (some t :: before) rest
      | some i =>
        match args[i]? with
        | none => pure none
        -- Without tokens it leaves no trace, not even a placemarker.
        | some a =>
          sig.substitute name args
            (((withWhiteOf t a.expanded).map some).reverse ++ before) rest
termination_by body.length
decreasing_by all_goals (simp only [List.length_cons, List.length_drop]; omega)

/-- The arguments with an empty one for a variable argument that was left out. -/
def completeArguments (sig : Signature) (args : List Argument) : List Argument :=
  if sig.variadic && args.length + 1 = sig.params.length then args ++ [⟨[], []⟩] else args

end Signature

namespace Builtin

/-- A text as a string literal. -/
def literal (text : String) : String :=
  String.ofList ('"' :: (Token.escape text.toList ++ ['"']))

/-- The token that a predefined macro stands for where `site` stands, after `count` uses. -/
def token (b : Builtin) (site : Token) (count : Nat) : Token :=
  let number := fun (value : String) =>
    ({ kind := .number, value, file := site.file, line := site.line, col := site.col } : Token)
  match b with
  | line => number (toString site.line)
  | file => { number (literal site.file) with kind := .string }
  | stamp text => { number text with kind := .string }
  | counter => number (toString count)

end Builtin

namespace Macro

/-- What an invocation at `site` is replaced by, when the counting macro has been used `count`
times. There is no result if an argument is missing. -/
def replacement? (m : Macro) (args : List Argument) (site : Token) (count : Nat) :
    Noted (Option (List Token)) :=
  match m with
  | object _ body => pure (some body)
  | builtin _ b => pure (some [b.token site count])
  | function name sig _ body =>
    (fun r => r.map (·.filterMap id)) <$> sig.substitute name (sig.completeArguments args) [] body

/-- The number of uses of the counting macro after the macro is replaced. -/
def countAfter (m : Macro) (count : Nat) : Nat :=
  match m with
  | builtin _ .counter => count + 1
  | _ => count

end Macro

end Preproc
