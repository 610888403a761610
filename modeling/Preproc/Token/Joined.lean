import Preproc.Token

/-!
# Adjacent string literals

Adjacent string literals that are not raw count as one. A `Joiner` holds the literals of a run until
the token after it is known, so a stream of tokens can be joined while it is produced.
-/

namespace Preproc

/-- One literal for a run of string literals, in the place of the first and with the first encoding
that is not empty. -/
def joinRun : List Token → List Token
  | [] => []
  | [s] => [s]
  | s :: more =>
    let encoding := ((s :: more).map (·.encoding)).find? (! ·.isEmpty)
    let content := (s :: more).flatMap (·.content)
    [{ s with value := String.ofList (encoding.getD [] ++ '"' :: (content ++ ['"'])) }]

/-- The string literals of an unfinished run, newest first. -/
structure Joiner where
  held : List Token := []
deriving DecidableEq, Repr

namespace Joiner

/-- Takes the next token, and gives those that are settled by it. -/
def push (j : Joiner) (t : Token) : List Token × Joiner :=
  if t.kind = .string && !t.isRaw then ([], ⟨t :: j.held⟩)
  else (joinRun j.held.reverse ++ [t], {})

/-- What is held when the stream ends. -/
def flush (j : Joiner) : List Token :=
  joinRun j.held.reverse

/-- Takes several tokens; `out` holds the settled ones, newest first. -/
def pushAll (out : List Token) (j : Joiner) (ts : List Token) : List Token × Joiner :=
  ts.foldl (fun (out, j) t => ((j.push t).1.reverse ++ out, (j.push t).2)) (out, j)

end Joiner

/-- The tokens, with each run of adjacent string literals as one. -/
def joinStrings (ts : List Token) : List Token :=
  let (out, j) := Joiner.pushAll [] {} ts
  out.reverse ++ j.flush

end Preproc
