import Preproc.Token

/-!
# The stack of token streams being rescanned

Each frame is the replacement of a macro; the last is the input itself. While a frame is live, the
name of its macro is painted: a name read from the frame, or from a frame above it, is never
expanded again if it is painted.

There are two ways to read. An expansion always has a stream and reads by `next?`. A caller that
may have none reads by `consume`, which then fails.

`remaining` counts the tokens that can still be read; `next?` reads one of them, so it takes one
away (`remaining_of_next?`).
-/

namespace Preproc

/-- A stream of tokens being rescanned. -/
structure Frame where
  /-- The macro whose replacement the stream is. -/
  owner : Option String := none
  /-- How many tokens have been read. -/
  consumed : Nat := 0
  /-- The tokens still to be read. -/
  rest : List Token
deriving DecidableEq, Repr

/-- The streams being rescanned, newest first. -/
abbrev Stack := List Frame

namespace Stack

/-- The names painted for tokens read from the first frame: the owners of all frames but the
last. -/
def painted : Stack → List String
  | [] => []
  | [_] => []
  | f :: g :: fs => f.owner.toList ++ painted (g :: fs)

/-- The names painted for tokens read from the frame at `level`, counted from the last. -/
def paintedAt (s : Stack) (level : Nat) : List String :=
  painted (s.drop (s.length - (level + 1)))

/-- A token as it is read from the first frame. -/
def paint (s : Stack) (t : Token) : Token :=
  if t.isName && t.expandable && s.painted.contains t.value then t.paint else t

/-- Drops the frames that are used up, down to the last. -/
def settle : Stack → Stack
  | [] => []
  | [f] => [f]
  | f :: g :: fs => if f.rest.isEmpty then settle (g :: fs) else f :: g :: fs

/-- Reads the next token, dropping the frames that are used up. -/
def next? (s : Stack) : Option (Token × Stack) :=
  match s with
  | [] => none
  | f :: fs =>
    match f.rest with
    | t :: ts => some (paint (f :: fs) t, { f with consumed := f.consumed + 1, rest := ts } :: fs)
    | [] => next? fs

/-- Why nothing can be asked of a stack. -/
inductive Fault where
  /-- There is no stream to read from. -/
  | noStream
deriving DecidableEq, Repr

/-- The wording of a fault. -/
def Fault.message : Fault → String
  | noStream => "list index out of range"

/-- A token as it is read where `names` are painted. -/
def paintWith (names : List String) (t : Token) : Token :=
  if t.isName && t.expandable && names.contains t.value then t.paint else t

/-- Drops the streams that are used up, and reads a token from the first that is left, if it has
one. The token is painted by the height of that stream. -/
def consume (s : Stack) : Except Fault (Option Token × Stack) :=
  match s.settle with
  | [] => .error .noStream
  | f :: fs =>
    match f.rest with
    | [] => .ok (none, f :: fs)
    | t :: ts =>
      .ok (some (paintWith (paintedAt (f :: fs) fs.length) t),
        { f with consumed := f.consumed + 1, rest := ts } :: fs)

/-- Reads `n` times. -/
def skip : Nat → Stack → Except Fault Stack
  | 0, s => .ok s
  | n + 1, s =>
    match s.consume with
    | .ok (_, s₁) => skip n s₁
    | .error e => .error e

/-- The tokens that follow, down through the stack, each as it will be read. -/
def lookahead : Stack → List Token
  | [] => []
  | f :: fs => f.rest.map (paint (f :: fs)) ++ lookahead fs

/-- The token that follows. -/
def peek? (s : Stack) : Option Token :=
  s.next?.map (·.1)

/-- Reads `n` tokens, or as many as there are. -/
def take : Nat → Stack → List Token × Stack
  | 0, s => ([], s)
  | n + 1, s =>
    match s.next? with
    | none => ([], s.settle)
    | some (t, s₁) =>
      let (ts, s₂) := take n s₁
      (t :: ts, s₂)

/-- The number of tokens that can still be read. -/
def remaining : Stack → Nat
  | [] => 0
  | f :: fs => f.rest.length + remaining fs

/-- Reading a token leaves one less. -/
theorem remaining_of_next? {s s' : Stack} {t : Token} (h : s.next? = some (t, s')) :
    s.remaining = s'.remaining + 1 := by
  induction s with
  | nil => simp [next?] at h
  | cons f fs ih =>
    unfold next? at h
    split at h
    · rename_i u us hf
      simp at h
      obtain ⟨-, rfl⟩ := h
      simp [remaining, hf]; omega
    · rename_i hf
      simp [remaining, hf, ih h]

end Stack

end Preproc
