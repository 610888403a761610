import Preproc.Lexer

/-!
# The operators of a replacement list

`stringize` makes one string literal of the tokens of an argument; `paste` makes one token of two.
-/

namespace Preproc

/-- The characters between the quotes of a stringized argument: the tokens as they are written,
literals escaped, with one space where white space separates two of them. -/
def stringizedContent : List Token → List Char
  | [] => []
  | t :: ts =>
    t.sanitized ++ ts.flatMap fun u => if u.prevWhite then ' ' :: u.sanitized else u.sanitized

/-- The string literal made of the tokens of an argument, in the place of `origin`. -/
def stringize (ts : List Token) (origin : Token) : Token :=
  { kind := .string
    value := String.ofList ('"' :: (stringizedContent ts ++ ['"']))
    file := origin.file
    line := origin.line
    col := origin.col
    prevWhite := origin.prevWhite
    expandedFrom := origin.expandedFrom }

/-- Joins two tokens to one, in the place of the first. If their joined text is not one token, both
stay as they are. -/
def paste (left right : Token) : Noted (List Token) := do
  let text := left.value ++ right.value
  match ← relex text.toList with
  | [t] =>
    if t.value = text then
      pure [{ t with
        file := left.file
        line := left.line
        col := left.col
        prevWhite := left.prevWhite
        bol := false
        expandedFrom := left.expandedFrom }]
    else
      Noted.note (.badPaste text)
      pure [left, right]
  | _ =>
    Noted.note (.badPaste text)
    pure [left, right]

end Preproc
