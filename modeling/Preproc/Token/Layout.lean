import Preproc.Token

/-!
# Writing tokens

Tokens are written as text with a new line wherever they move to another line or file, and one space
where white space separates two tokens of a line.
-/

namespace Preproc

/-- What stands between a token and the one before it. -/
def separator (prev t : Token) : String :=
  if prev.file ≠ t.file || prev.line ≠ t.line then "\n" else if t.prevWhite then " " else ""

/-- The text of the tokens up to the end token, ended by a new line if there are any. -/
def layout (ts : List Token) : String :=
  match ts.takeWhile (·.kind ≠ .eof) with
  | [] => ""
  | t :: rest =>
    t.value
      ++ String.join (List.zipWith (fun p u => separator p u ++ u.value) (t :: rest) rest)
      ++ "\n"

end Preproc
