import Preproc.Expansion.Arguments
import Preproc.Macro.Table
import Preproc.Token.DefinedOperand

/-!
# Macro expansion

Tokens are read one at a time from the stack of streams being rescanned. A token that is not the
start of an invocation is emitted; an invocation is replaced, and its replacement becomes a new
stream on top of the stack. The arguments of an invocation that are substituted outside of operands
are expanded first, each by an expansion of its own.

Two limits hold: on the number of live streams, counting those of the expansions that wait, and on
the number of tokens produced by replacements. Expansion ends because each step uses up a token of
the input or of the second limit: `Expander.weight` is what is left of both.

Beside the two limits there is a bound on how many expansions of arguments are open inside of one
another. It is the host's, not a setting: each of them takes a part of the stack of calls. The two
limits are looked at when a replacement is put on the stack, which is after its arguments are
expanded, so they do not keep arguments from being nested deeper than the host allows.
-/

namespace Preproc

/-- Why an expansion fails. -/
inductive ExpansionError where
  /-- Too many streams are live when `name` is to be replaced. -/
  | depth (limit : Int) (name : String)
  /-- Too many tokens are produced when `name` is replaced. -/
  | length (limit : Int) (name : String)
  /-- Arguments are nested more deeply than they can be expanded. -/
  | nesting
  /-- A replacement asks for an argument that was not given. -/
  | missingArgument
deriving DecidableEq, Repr

/-- The wording of a failure. -/
def ExpansionError.message : ExpansionError → String
  | depth limit name => s!"Maximum macro expansion depth ({limit}) exceeded while expanding {name}"
  | length limit name =>
    s!"Maximum macro expansion length ({limit}) exceeded while expanding {name}"
  | nesting => "maximum recursion depth exceeded"
  | missingArgument => "An argument is missing."

/-- Whether the failure is a problem of the input, which is reported: that a limit is exceeded. -/
def ExpansionError.isReported : ExpansionError → Bool
  | depth .. | length .. => true
  | nesting | missingArgument => false

/-- How deeply the host lets things be nested: it has a thousand calls, and each level takes two. -/
def defaultNesting : Nat := 490

/-- What an expansion works with. -/
structure Expansion where
  macros : MacroTable
  /-- The limit on live streams. -/
  maxDepth : Int := 200
  /-- The limit on produced tokens; negative when an expansion starts beyond the limit. -/
  maxTokens : Int := 1000000
  /-- Whether the tokens are a condition, in which `defined` is an operator. -/
  condition : Bool := false
  /-- The number of live streams of the expansions that wait for this one. -/
  waiting : Nat := 0
  /-- How many expansions of arguments may still be opened inside of one another. -/
  nesting : Nat := defaultNesting
deriving DecidableEq, Repr

/-- What an expansion works with that expands an argument, when `depth` streams of the invoking
expansion are live and `produced` tokens have been produced: it gets what is left of the limit on
tokens, below the streams that wait. -/
def Expansion.forArgument (env : Expansion) (depth produced : Nat) : Expansion :=
  { env with
    maxTokens := env.maxTokens - produced
    waiting := env.waiting + depth
    nesting := env.nesting - 1 }

/-- How far an expansion has come. -/
structure Expander where
  stack : Stack := []
  /-- The number of tokens produced by replacements. -/
  produced : Nat := 0
  /-- The number of uses of the counting macro. -/
  count : Nat := 0
  notes : Array Note := #[]
deriving DecidableEq, Repr

/-- Where the expansion of the argument `a` starts. -/
def Expander.ofArgument (a : List Token) (count : Nat) (notes : Array Note) : Expander :=
  { stack := [⟨none, 0, a⟩], count := count, notes := notes }

/-- The result of an expansion, with the state in which it ended. -/
inductive Expanded (α : Type) where
  | ok (value : α) (state : Expander)
  | error (cause : ExpansionError) (state : Expander)
deriving Repr

namespace Expander

/-- The state with further notes. -/
def addNotes (x : Expander) (notes : List Note) : Expander :=
  { x with notes := x.notes ++ notes.toArray }

/-- The tokens left to read, and the tokens that may still be produced. -/
def weight (x : Expander) (env : Expansion) : Nat :=
  x.stack.remaining + (env.maxTokens - x.produced).toNat

/-- Puts the replacement `ts` of the macro `name` on top of the stack. The tokens count as produced
even if they are too many. -/
def push (x : Expander) (env : Expansion) (ts : List Token) (name : String) : Expanded Unit :=
  if env.maxDepth ≤ x.stack.length + env.waiting then .error (.depth env.maxDepth name) x
  else
    let produced := x.produced + ts.length
    if env.maxTokens < produced then
      .error (.length env.maxTokens name) { x with produced := produced }
    else .ok () { x with produced := produced, stack := ⟨some name, 0, ts⟩ :: x.stack }

/-- The number that the operator `defined` at `site` stands for. -/
def definedValue (site : Token) (value : Bool) : Token :=
  { kind := .number
    value := if value then "1" else "0"
    file := site.file
    line := site.line
    col := site.col
    prevWhite := site.prevWhite
    expandedFrom := site.expandedFrom }

/-- Reads the operand of the operator `defined` at `site`, and gives the value. Without an operand
the operator stays as it is. -/
def defined (x : Expander) (env : Expansion) (site : Token) : Token × Expander :=
  match definedOperand? (x.stack.take 3).1 with
  | some (name, n) =>
    (definedValue site (env.macros.isDefined name), { x with stack := (x.stack.take n).2 })
  | none => (site, x.addNotes [.definedOperand])

/-- What the next token asks for. -/
inductive Move where
  /-- No token is left. -/
  | finish (x : Expander)
  /-- The token stays as it is. -/
  | emit (t : Token) (x : Expander)
  /-- The token `site` invokes `m`. -/
  | invoke (m : Macro) (site : Token) (args : List (List Token)) (x : Expander)
deriving Repr

/-- Reads the argument list of the function-like macro `m` after its name `site`. A name that no
parenthesis follows directly stays as it is, and so does one whose argument list does not fit. -/
def call (x : Expander) (m : Macro) (site : Token) : Move :=
  if x.stack.peek?.any fun p => p.isPunctuator "(" && !p.prevWhite then
    let found := x.stack.collect m
    match found.value with
    | some (args, s) => .invoke m site args ({ x with stack := s }.addNotes found.notes)
    | none => .emit site (x.addNotes found.notes)
  else .emit site x

/-- Reads the next token and decides what becomes of it. -/
def move (x : Expander) (env : Expansion) : Move :=
  match x.stack.next? with
  | none => .finish { x with stack := x.stack.settle }
  | some (t, s) =>
    let x₁ := { x with stack := s }
    if !t.isName || !t.expandable then .emit t x₁
    else if env.condition && t.value = "defined" then
      let (u, x₂) := x₁.defined env t
      .emit u x₂
    else
      match env.macros.find? t.value with
      | none => .emit t x₁
      | some m => if m.isFunctionLike then x₁.call m t else .invoke m t [] x₁

/-- The replacement of an invocation as it stands at `site`: its tokens are located there, and the
white space before the first is that before the invocation. -/
def relocated (m : Macro) (site : Token) (ts : List Token) : List Token :=
  withWhiteOf site (ts.map fun t => t.relocate site m.name)

end Expander

/-! ## Termination -/

theorem Stack.remaining_settle (s : Stack) : s.settle.remaining = s.remaining := by
  fun_induction Stack.settle s with
  | case1 => rfl
  | case2 => rfl
  | case3 f g fs hf ih => simp_all [Stack.remaining]
  | case4 => rfl

theorem Stack.remaining_take_le (n : Nat) (s : Stack) : (s.take n).2.remaining ≤ s.remaining := by
  induction n generalizing s with
  | zero => simp [Stack.take]
  | succ n ih =>
    unfold Stack.take
    split
    · simp [Stack.remaining_settle]
    · rename_i t s₁ h
      have := Stack.remaining_of_next? h
      have := ih s₁
      simp
      omega

namespace Expander

theorem produced_defined (x : Expander) (env : Expansion) (site : Token) :
    (x.defined env site).2.produced = x.produced := by
  unfold defined
  split <;> rfl

theorem remaining_defined_le (x : Expander) (env : Expansion) (site : Token) :
    (x.defined env site).2.stack.remaining ≤ x.stack.remaining := by
  unfold defined
  split
  · exact Stack.remaining_take_le _ _
  · exact Nat.le_refl _

/-- A call leaves the number of produced tokens, and what it emits or invokes leaves no more to read
than there was. -/
theorem call_emit {x y : Expander} {m : Macro} {site t : Token} (h : x.call m site = .emit t y) :
    y.produced = x.produced ∧ y.stack = x.stack := by
  unfold call at h
  split at h
  · simp only at h
    split at h
    · simp at h
    · simp at h
      obtain ⟨-, rfl⟩ := h
      simp [addNotes]
  · simp at h
    obtain ⟨-, rfl⟩ := h
    simp

theorem call_invoke {x y : Expander} {m n : Macro} {site t : Token} {args : List (List Token)}
    (h : x.call m site = .invoke n t args y) :
    y.produced = x.produced ∧ Stack.weight args + y.stack.remaining < x.stack.remaining := by
  unfold call at h
  split at h
  · simp only at h
    split at h
    · rename_i args' s hc
      simp at h
      obtain ⟨-, -, rfl, rfl⟩ := h
      exact ⟨rfl, Stack.weight_of_collect hc⟩
    · simp at h
  · simp at h

theorem call_ne_finish (x y : Expander) (m : Macro) (site : Token) :
    x.call m site ≠ .finish y := by
  unfold call
  split
  · simp only
    split <;> simp
  · simp

/-- At the end of the input nothing is produced. -/
theorem produced_of_move_finish {x y : Expander} {env : Expansion} (h : x.move env = .finish y) :
    y.produced = x.produced := by
  unfold move at h
  split at h
  · simp only [Move.finish.injEq] at h
    rw [← h]
  · simp only at h
    split at h
    · simp at h
    · split at h
      · simp at h
      · split at h
        · simp at h
        · split at h
          · exact absurd h (call_ne_finish _ _ _ _)
          · simp at h

/-- Emitting a token uses up one that was to be read, and produces nothing. -/
theorem remaining_of_move_emit {x y : Expander} {env : Expansion} {t : Token}
    (h : x.move env = .emit t y) :
    y.produced = x.produced ∧ y.stack.remaining < x.stack.remaining := by
  unfold move at h
  split at h
  · simp at h
  · rename_i u s hn
    have hr := Stack.remaining_of_next? hn
    simp only at h
    split at h
    · simp at h
      obtain ⟨-, rfl⟩ := h
      exact ⟨rfl, by simp only; omega⟩
    · split at h
      · simp at h
        obtain ⟨-, rfl⟩ := h
        have hp := produced_defined { x with stack := s } env u
        have hs := remaining_defined_le { x with stack := s } env u
        exact ⟨hp, by simp only at hs; omega⟩
      · split at h
        · simp at h
          obtain ⟨-, rfl⟩ := h
          exact ⟨rfl, by simp only; omega⟩
        · split at h
          · obtain ⟨hp, hs⟩ := call_emit h
            exact ⟨hp, by rw [hs]; simp only; omega⟩
          · simp at h

theorem weight_of_move_emit {x y : Expander} {env : Expansion} {t : Token}
    (h : x.move env = .emit t y) : y.weight env < x.weight env := by
  obtain ⟨hp, hs⟩ := remaining_of_move_emit h
  simp only [weight, hp]
  omega

/-- The arguments of an invocation, and what is left after it, weigh less than what was there. -/
theorem weight_of_move_invoke {x y : Expander} {env : Expansion} {m : Macro} {t : Token}
    {args : List (List Token)} (h : x.move env = .invoke m t args y) :
    y.produced = x.produced ∧ Stack.weight args + y.stack.remaining < x.stack.remaining := by
  unfold move at h
  split at h
  · simp at h
  · rename_i u s hn
    have hr := Stack.remaining_of_next? hn
    simp only at h
    split at h
    · simp at h
    · split at h
      · simp at h
      · split at h
        · simp at h
        · split at h
          · obtain ⟨hp, hs⟩ := call_invoke h
            simp at hp hs
            exact ⟨hp, by omega⟩
          · simp at h
            obtain ⟨-, -, rfl, rfl⟩ := h
            exact ⟨rfl, by simp [Stack.weight]; omega⟩

/-- A replacement uses up as much of the limit as it adds to be read. -/
theorem weight_of_push {x y : Expander} {env : Expansion} {ts : List Token} {name : String}
    (h : x.push env ts name = .ok () y) : y.weight env = x.weight env := by
  unfold push at h
  split at h
  · simp at h
  · simp only at h
    split at h
    · simp at h
    · simp at h
      subst h
      simp [weight, Stack.remaining]
      omega

end Expander

/-! ## Expansion -/

/-- What expanding the arguments of an invocation gives: the arguments, the tokens produced, the
uses of the counting macro, and all notes so far. If an argument fails, so does the whole. -/
structure PreExpanded where
  args : Except ExpansionError (List Argument)
  produced : Nat
  count : Nat
  notes : Array Note
deriving Repr

mutual

/-- Expands what is left on the stack, after the tokens `out`, newest first. -/
def expandFrom (env : Expansion) (x : Expander) (out : List Token) : Expanded (List Token) :=
  match _h : x.move env with
  | .finish y => .ok out.reverse y
  | .emit t y => expandFrom env y (t :: out)
  | .invoke m site args y =>
    let pre := preExpand env y.stack.length m.plainParams args [] y.produced 0 y.count y.notes
    -- What the arguments produced counts even if one of them failed.
    let y₁ :=
      { y with produced := y.produced + pre.produced, count := pre.count, notes := pre.notes }
    match pre.args with
    | .error e => .error e y₁
    | .ok given =>
      let replaced := m.replacement? given site y₁.count
      -- The macro counts as used before the limits are looked at.
      let y₂ := { y₁ with count := m.countAfter y₁.count }.addNotes replaced.notes
      match replaced.value with
      | none => .error .missingArgument y₂
      | some ts =>
        match _hp : y₂.push env (Expander.relocated m site ts) m.name with
        | .error e y₃ => .error e y₃
        | .ok () y₃ => expandFrom env y₃ out
termination_by 2 * x.weight env
decreasing_by
  · have := Expander.weight_of_move_emit _h
    omega
  · obtain ⟨hp, hs⟩ := Expander.weight_of_move_invoke _h
    simp [Expander.weight, hp]
    omega
  · obtain ⟨hp, hs⟩ := Expander.weight_of_move_invoke _h
    have := Expander.weight_of_push _hp
    rw [this]
    simp [Expander.weight, Expander.addNotes, hp, y₂, y₁]
    omega

/-- Expands the arguments that are substituted outside of operands, as `plain` tells; beyond it
every argument is. `depth` is the number of live streams of the invoking expansion, `start` the
number of tokens it had produced, and `produced` the number produced by the arguments `before`,
newest first. No argument can be expanded if no further expansion may be opened. -/
def preExpand (env : Expansion) (depth : Nat) (plain : List Bool) (args : List (List Token))
    (before : List Argument) (start produced count : Nat) (notes : Array Note) : PreExpanded :=
  match args with
  | [] => ⟨.ok before.reverse, produced, count, notes⟩
  | a :: rest =>
    if plain.headD true then
      if env.nesting = 0 then ⟨.error .nesting, produced, count, notes⟩
      else
        match expandFrom (env.forArgument depth (start + produced)) (.ofArgument a count notes) []
            with
        | .error e x => ⟨.error e, produced, x.count, x.notes⟩
        | .ok ts x =>
          preExpand env depth plain.tail rest (⟨a, ts⟩ :: before) start (produced + x.produced)
            x.count x.notes
    else preExpand env depth plain.tail rest (⟨a, []⟩ :: before) start produced count notes
termination_by 2 * (Stack.weight args + (env.maxTokens - (start + produced : Nat)).toNat) + 1
decreasing_by
  · simp [Expander.weight, Expansion.forArgument, Expander.ofArgument, Stack.weight,
      Stack.remaining]
    omega
  · simp [Stack.weight]
    omega
  · simp [Stack.weight]

end

/-- Expands a list of tokens. What was produced before counts towards the limit. -/
def Expander.expand (x : Expander) (env : Expansion) (ts : List Token) : Expanded (List Token) :=
  expandFrom env { x with stack := [⟨none, 0, ts⟩] } []

/-- Expands the arguments of an invocation of `m` that is being read. -/
def Expander.expandArguments (x : Expander) (env : Expansion) (m : Macro)
    (args : List (List Token)) : Expanded (List Argument) :=
  let pre := preExpand env x.stack.length m.plainParams args [] x.produced 0 x.count x.notes
  let y := { x with produced := x.produced + pre.produced, count := pre.count, notes := pre.notes }
  match pre.args with
  | .error e => .error e y
  | .ok given => .ok given y

end Preproc
