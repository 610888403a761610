import Preproc.Preprocessor.Termination
import Preproc.Token.Joined

/-!
# The tokens of a run

The tokens that the steps of a run produce, with adjacent string literals joined. `Preprocessor.run`
takes all steps; a `Session` takes only those that the tokens asked for need, so that between two
tokens macros can be defined and files changed.

String literals that wait to be joined are lost when a run fails.
-/

namespace Preproc

/-- How a run ended: the tokens it produced, what ended it before its end, and its last state. -/
structure Finished where
  tokens : List Token
  failure : Option Failure
  last : Preprocessor
deriving Repr

/-- The paths at which the run looked for headers. -/
def Finished.searched (f : Finished) : List String :=
  f.last.context.headers.known.flatMap fun (key, _) =>
    f.last.context.headers.candidates f.last.env.disk key

namespace Preprocessor

/-- Takes all steps that are left; `out` holds the tokens produced so far, newest first. -/
def runFrom (p : Preprocessor) (j : Joiner) (out : List Token) : Finished :=
  match _h : p.step with
  | .done q => ⟨out.reverse ++ j.flush, none, q⟩
  -- The literals that wait in `j` are lost.
  | .failed cause q => ⟨out.reverse, some cause, q⟩
  | .more q ts =>
    let joined := j.pushAll out ts
    q.runFrom joined.2 joined.1
termination_by p
decreasing_by exact below_of_step _h

/-- Processes a text as the main file. -/
def runText (p : Preprocessor) (file : String) (text : List Char) : Finished :=
  match p.start file text with
  | .error cause => ⟨[], some cause, p⟩
  | .ok q => q.runFrom {} []

/-- Processes the main file that `path` leads to. -/
def runFile (p : Preprocessor) (path : String) : Finished :=
  match p.env.disk.read p.env.config.charset path with
  | .error cause => ⟨[], some (.unreadable cause), p⟩
  | .ok text => p.runText path text

end Preprocessor

/-! ## Sessions -/

/-- What taking steps until a token is settled leads to. -/
structure Pulled where
  /-- The tokens settled by the last step. -/
  tokens : List Token
  failure : Option Failure := none
  /-- Whether there may be more tokens. -/
  live : Bool
  last : Preprocessor
  joiner : Joiner := {}
deriving Repr

/-- Takes steps until a token is settled, or there are no more steps. -/
def Preprocessor.pull (p : Preprocessor) (j : Joiner) : Pulled :=
  match _h : p.step with
  | .done q => { tokens := j.flush, live := false, last := q }
  | .failed cause q => { tokens := [], failure := some cause, live := false, last := q }
  | .more q ts =>
    let joined := j.pushAll [] ts
    if joined.1.isEmpty then q.pull joined.2
    else { tokens := joined.1.reverse, live := true, last := q, joiner := joined.2 }
termination_by p
decreasing_by exact below_of_step _h

/-- A run whose tokens are taken one at a time. -/
structure Session where
  run : Preprocessor
  /-- The name and the text of a main file that is to be processed when a token is asked for. -/
  queued : Option (String × List Char) := none
  /-- Tokens that are settled and have not been taken. -/
  ready : List Token := []
  joiner : Joiner := {}
  /-- Whether the run may settle more tokens. -/
  live : Bool := false
deriving Repr

namespace Session

/-- Asks for the tokens of a text as the main file. -/
def start (s : Session) (file : String) (text : List Char) : Session :=
  { run := s.run, queued := some (file, text) }

/-- Asks for the tokens of the main file that `path` leads to. -/
def startFile (s : Session) (path : String) : Except Failure Session :=
  match s.run.env.disk.read s.run.env.config.charset path with
  | .error cause => .error (.unreadable cause)
  | .ok text => .ok (s.start path text)

/-- Starts the run on the main file that waits for it. -/
def begin (s : Session) : Except Failure Session :=
  match s.queued with
  | none => .ok s
  | some (file, text) => (fun p => { run := p, live := true }) <$> s.run.start file text

/-- Takes the next token of a run that has begun. -/
def takeOne (s : Session) : Except Failure (Option Token) × Session :=
  match s.ready with
  | t :: ts => (.ok (some t), { s with ready := ts })
  | [] =>
    if s.live then
      let pulled := s.run.pull s.joiner
      let s' := { run := pulled.last, ready := pulled.tokens.tail, joiner := pulled.joiner
                  live := pulled.live }
      match pulled.failure with
      | some cause => (.error cause, s')
      | none => (.ok pulled.tokens.head?, s')
    else (.ok none, s)

/-- Takes up to `n` tokens of a run that has begun. `none` follows the last token of the run. -/
def takeUpTo : Nat → Session → Except Failure (List (Option Token)) × Session
  | 0, s => (.ok [], s)
  | n + 1, s =>
    match s.takeOne with
    | (.error cause, s₁) => (.error cause, s₁)
    | (.ok none, s₁) => (.ok [none], s₁)
    | (.ok (some t), s₁) =>
      match takeUpTo n s₁ with
      | (.error cause, s₂) => (.error cause, s₂)
      | (.ok ts, s₂) => (.ok (some t :: ts), s₂)

/-- Takes all tokens of a run that has begun, and `none` after the last. -/
def takeAll (s : Session) : Except Failure (List (Option Token)) × Session :=
  if s.live then
    let finished := s.run.runFrom s.joiner s.ready.reverse
    match finished.failure with
    | some cause => (.error cause, { run := finished.last })
    | none => (.ok (finished.tokens.map some ++ [none]), { run := finished.last })
  else (.ok (s.ready.map some ++ [none]), { s with ready := [] })

/-- Takes up to `n` tokens, or all. The run begins when the first token is asked for. -/
def next (s : Session) (n : Option Nat) : Except Failure (List (Option Token)) × Session :=
  if n = some 0 then (.ok [], s)
  else
    match s.begin with
    | .error cause => (.error cause, { run := s.run })
    | .ok s =>
      match n with
      | some n => s.takeUpTo n
      | none => s.takeAll

end Session

end Preproc
