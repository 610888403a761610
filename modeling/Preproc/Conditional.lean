import Preproc.Note

/-!
# Conditional groups

The groups that are open at a point of a file, innermost first. Code is emitted when the innermost
group is in a branch that is taken, inside code that is emitted. The condition of a branch is asked
for only when its answer can matter: `opensTested` and `elifTested` tell when.
-/

namespace Preproc

/-- How far a group has come. -/
inductive Branch where
  /-- No branch has been taken yet. -/
  | awaiting
  /-- The current branch is taken. -/
  | active
  /-- An earlier branch was taken. -/
  | done
deriving DecidableEq, Repr

/-- An open group. -/
structure Group where
  state : Branch
  /-- Whether the group stands in code that is emitted. -/
  parentActive : Bool
  seenElse : Bool := false
deriving DecidableEq, Repr

namespace Group

/-- Whether some branch has been taken. -/
def branchTaken (g : Group) : Bool :=
  g.state ≠ .awaiting

/-- Whether code in the current branch is emitted. -/
def inActiveBranch (g : Group) : Bool :=
  g.parentActive && g.state = .active

end Group

/-- The open groups, innermost first. -/
structure Conditionals where
  groups : List Group := []
deriving DecidableEq, Repr

namespace Conditionals

/-- Whether code is emitted here. -/
def active (c : Conditionals) : Bool :=
  match c.groups with
  | [] => true
  | g :: _ => g.inActiveBranch

/-- The number of open groups. -/
def depth (c : Conditionals) : Nat :=
  c.groups.length

/-- Whether the condition that opens a group is asked for. -/
def opensTested (c : Conditionals) : Bool :=
  c.active

/-- Opens a group whose condition has the answer `test`. -/
def openGroup (c : Conditionals) (test : Bool) : Conditionals :=
  ⟨⟨if c.active && test then .active else .awaiting, c.active, false⟩ :: c.groups⟩

/-- Whether the condition of a further branch is asked for. -/
def elifTested (c : Conditionals) : Bool :=
  c.groups.head?.any fun g => !g.seenElse && g.state = .awaiting && g.parentActive

/-- The innermost group after the start of a further branch whose condition has the answer
`test`. -/
def elifGroup (g : Group) (test : Bool) : Noted Group :=
  if g.seenElse then ⟨{ g with state := .done }, [.elifAfterElse]⟩
  else
    match g.state with
    | .active => pure { g with state := .done }
    | .awaiting => pure (if g.parentActive && test then { g with state := .active } else g)
    | .done => pure g

/-- Starts a further branch whose condition has the answer `test`; `none` if no group is open. -/
def elif? (c : Conditionals) (test : Bool) : Option (Noted Conditionals) :=
  match c.groups with
  | [] => none
  | g :: gs => some ((fun g' => ⟨g' :: gs⟩) <$> elifGroup g test)

/-- The innermost group after the start of its last branch. -/
def otherwiseGroup (g : Group) : Noted Group :=
  if g.seenElse then ⟨{ g with state := .done }, [.elseAfterElse]⟩
  else
    match g.state with
    | .active => pure { g with state := .done, seenElse := true }
    | .awaiting => pure { g with state := .active, seenElse := true }
    | .done => pure { g with seenElse := true }

/-- Starts the last branch; `none` if no group is open. -/
def otherwise? (c : Conditionals) : Option (Noted Conditionals) :=
  match c.groups with
  | [] => none
  | g :: gs => some ((fun g' => ⟨g' :: gs⟩) <$> otherwiseGroup g)

/-- Closes the innermost group; `none` if no group is open. -/
def endif? (c : Conditionals) : Option Conditionals :=
  match c.groups with
  | [] => none
  | _ :: gs => some ⟨gs⟩

/-- Closes all groups but the outermost `depth`, and tells how many. -/
def truncate (c : Conditionals) (depth : Nat) : Nat × Conditionals :=
  let closed := c.depth - depth
  (closed, ⟨c.groups.drop closed⟩)

end Conditionals

end Preproc
