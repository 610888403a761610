import Mathlib.Data.List.Perm.Subperm
import Preproc.Proofs.Expansion.Painting

/-!
# Object-like macros

What object-like macros stand for has a plain recursive definition, `MacroTable.unfolded`: a name is
replaced by what the tokens of its body stand for, with the name painted in all of them. An
expansion keeps a stack of streams instead. The two agree because the names painted for a token are
always those of the bodies that it stands in, also while streams that are used up are still on the
stack.

`Stack.along` adds up over a stack what its tokens stand for, each with the names painted for it. It
is what an expansion leaves unchanged: reading a token takes its part away, and replacing a name
puts the same part back.

## Key results

- `MacroTable.unfolded`, `MacroTable.substituted`: what a token stands for, and the bodies that are
  put in for it
- `Stack.along_of_next?`: reading a token takes what it stands for off the stack
- `expand_objects`: an expansion gives what the tokens stand for, unless that is too long
-/

namespace Preproc

/-! ## The recursive meaning of a token -/

namespace Token

/-- What a token is, apart from where it stands and where it comes from. -/
def look (t : Token) : Kind × String × Bool :=
  (t.kind, t.value, t.expandable)

/-- Whether the token is a name that may be expanded. -/
def isOpen (t : Token) : Bool :=
  t.isName && t.expandable

/-- A token is open if it is a name and has no paint. -/
theorem isOpen_iff {t : Token} : t.isOpen = true ↔ t.isName = true ∧ t.expandable = true := by
  rw [isOpen, Bool.and_eq_true]

/-- Whether a token is open depends on its look only. -/
private theorem isOpen_congr {t u : Token} (h : t.look = u.look) : t.isOpen = u.isOpen := by
  simp only [look, Prod.mk.injEq] at h
  simp only [isOpen, isName, h.1, h.2.2]

end Token

namespace MacroTable

/-- Fewer names are left to be painted once a name of the table is. -/
private theorem unpainted_lt {table : MacroTable} {painted : List String} {name : String}
    {m : Macro} (h : table.find? name = some m) (hp : name ∉ painted) :
    (table.names.filter (· ∉ name :: painted)).length <
      (table.names.filter (· ∉ painted)).length := by
  -- Painting one more name takes it out of the list.
  have hsplit : table.names.filter (· ∉ name :: painted) =
      (table.names.filter (· ∉ painted)).filter (· ≠ name) := by
    rw [List.filter_filter]
    congr 1
    funext other
    simp [not_or]
  have hmem : name ∈ table.names :=
    List.mem_map.2 ⟨m, List.mem_of_find?_eq_some h, name_of_find? h⟩
  rw [hsplit, List.length_filter_lt_length_iff_exists]
  exact ⟨name, List.mem_filter.2 ⟨hmem, by simpa using hp⟩, by simp⟩

/-- Goes through what a token stands for where the names `painted` are painted. A name that may be
expanded is painted if it is one of them. If it is another that is defined, it stands for what the
tokens of the body do, with the name painted as well. Any other token stands for itself. `keep` says
what is made of a token that stays, `enter` what is made of a body that is put in. -/
def walk {α : Type} (table : MacroTable) (keep : Token → List α) (enter : List Token → List α)
    (painted : List String) (t : Token) : List α :=
  if t.isOpen then
    if _hp : t.value ∈ painted then keep t.paint
    else
      match _hm : table.find? t.value with
      | none => keep t
      | some m =>
        enter m.body ++ m.body.flatMap fun u => table.walk keep enter (t.value :: painted) u
  else keep t
termination_by (table.names.filter (· ∉ painted)).length
decreasing_by exact unpainted_lt _hm _hp

/-- The tokens that a token stands for. -/
def unfolded (table : MacroTable) : List String → Token → List Token :=
  table.walk (fun t => [t]) fun _ => []

/-- The bodies that are put in for names on the way to what a token stands for. -/
def substituted (table : MacroTable) : List String → Token → List (List Token) :=
  table.walk (fun _ => []) fun body => [body]

/-- All macros of the table are object-like, and none is predefined with a value of its own. -/
def Objects (table : MacroTable) : Prop :=
  ∀ m ∈ table.macros, ∃ name body, m = .object name body

section

variable {α : Type} {table : MacroTable} {keep : Token → List α} {enter : List Token → List α}
variable {painted : List String} {t u : Token}

private theorem walk_of_closed (h : t.isOpen = false) :
    table.walk keep enter painted t = keep t := by
  rw [walk, if_neg (by simp [h])]

private theorem walk_of_mem (h : t.isOpen = true) (hp : t.value ∈ painted) :
    table.walk keep enter painted t = keep t.paint := by
  rw [walk, if_pos h, dif_pos hp]

/-- A name that is not defined stays. -/
private theorem walk_of_find?_none (hp : t.value ∉ painted) (hm : table.find? t.value = none) :
    table.walk keep enter painted t = keep t := by
  by_cases h : t.isOpen = true
  · rw [walk, if_pos h, dif_neg hp]
    split <;> simp_all
  · exact walk_of_closed (by simpa using h)

/-- Any other name stands for its body, with the name painted in it. -/
private theorem walk_of_find?_some (h : t.isOpen = true) (hp : t.value ∉ painted) {m : Macro}
    (hm : table.find? t.value = some m) : table.walk keep enter painted t =
      enter m.body ++ m.body.flatMap (table.walk keep enter (t.value :: painted)) := by
  rw [walk, if_pos h, dif_neg hp]
  split
  · simp_all
  · rename_i n hn
    rw [hm, Option.some.injEq] at hn
    rw [hn]

/-- What is made of a token depends on its look only, if that is so of a token that stays. -/
private theorem walk_congr {β : Type} {view : α → β}
    (hkeep : ∀ t u : Token, t.look = u.look → (keep t).map view = (keep u).map view)
    (h : t.look = u.look) :
    (table.walk keep enter painted t).map view = (table.walk keep enter painted u).map view := by
  have hopen := Token.isOpen_congr h
  have hvalue : t.value = u.value := congrArg (·.2.1) h
  by_cases ht : t.isOpen = true
  · have hu : u.isOpen = true := hopen ▸ ht
    by_cases hp : t.value ∈ painted
    · rw [walk_of_mem ht hp, walk_of_mem hu (hvalue ▸ hp)]
      -- Paint changes the looks of both in the same way.
      refine hkeep _ _ ?_
      have hkind : t.kind = u.kind := congrArg (·.1) h
      simp only [Token.look, Token.paint, hkind, hvalue]
    · cases hm : table.find? t.value with
      | none =>
        rw [walk_of_find?_none hp hm, walk_of_find?_none (hvalue ▸ hp) (hvalue ▸ hm)]
        exact hkeep t u h
      | some m =>
        rw [walk_of_find?_some ht hp hm, walk_of_find?_some hu (hvalue ▸ hp) (hvalue ▸ hm), hvalue]
  · have ht' : t.isOpen = false := by simpa using ht
    rw [walk_of_closed ht', walk_of_closed (hopen ▸ ht')]
    exact hkeep t u h

/-- What is made of a list of tokens depends on their looks only. -/
private theorem flatMap_walk_congr {β : Type} {view : α → β}
    (hkeep : ∀ t u : Token, t.look = u.look → (keep t).map view = (keep u).map view)
    {ts us : List Token} (h : ts.map Token.look = us.map Token.look) :
    (ts.flatMap (table.walk keep enter painted)).map view =
      (us.flatMap (table.walk keep enter painted)).map view := by
  induction ts generalizing us with
  | nil =>
    have hus : us = [] := List.map_eq_nil_iff.1 h.symm
    rw [hus]
  | cons t ts ih =>
    -- The two lists are walked abreast.
    obtain ⟨u, us', rfl, hlook, hrest⟩ := List.map_eq_cons_iff.1 h.symm
    simp only [List.flatMap_cons, List.map_append]
    rw [walk_congr hkeep hlook.symm, ih hrest.symm]

end

end MacroTable

/-! ## What a stack stands for -/

namespace Stack

/-- What `f` makes of the tokens on a stack, each with the names painted for it. -/
def along {α : Type} (f : List String → Token → List α) : Stack → List α
  | [] => []
  | g :: gs => g.rest.flatMap (f (painted (g :: gs))) ++ along f gs

section

variable {α : Type} {table : MacroTable} {keep : Token → List α} {enter : List Token → List α}

/-- Paint that is put on when a token is read changes nothing of what it stands for. -/
private theorem walk_paint (s : Stack) (t : Token) :
    table.walk keep enter s.painted (s.paint t) = table.walk keep enter s.painted t := by
  unfold paint
  split
  · -- A painted name stands for itself with paint, which is what it is read as.
    rename_i hpaint
    simp only [Bool.and_eq_true, List.contains_eq_mem, decide_eq_true_eq] at hpaint
    obtain ⟨⟨hname, hexp⟩, hmem⟩ := hpaint
    rw [MacroTable.walk_of_mem (Token.isOpen_iff.2 ⟨hname, hexp⟩) hmem]
    exact MacroTable.walk_of_closed (by simp [Token.isOpen, Token.paint])
  · rfl

/-- Reading a token takes what it stands for off the stack. -/
theorem along_of_next? {s s' : Stack} {u : Token} (h : s.next? = some (u, s')) :
    s.along (table.walk keep enter) =
      table.walk keep enter s'.painted u ++ s'.along (table.walk keep enter) := by
  induction s with
  | nil => simp [next?] at h
  | cons f fs ih =>
    unfold next? at h
    -- A stream that is used up has no tokens to stand for, though its name is still painted.
    split at h
    · rename_i t ts hf
      simp only [Option.some.injEq, Prod.mk.injEq] at h
      obtain ⟨rfl, rfl⟩ := h
      simp only [along, painted_read, hf, List.flatMap_cons, walk_paint, List.append_assoc]
    · rename_i hf
      simp only [along, hf, List.flatMap_nil, List.nil_append]
      exact ih h

/-- A stack without a next token stands for nothing. -/
private theorem along_of_next?_none {s : Stack} (h : s.next? = none)
    (f : List String → Token → List α) : s.along f = [] := by
  induction s with
  | nil => rfl
  | cons g gs ih =>
    unfold next? at h
    split at h
    · simp at h
    · -- This stream is used up, and so are those below it.
      rename_i hg
      simp only [along, hg, List.flatMap_nil, List.nil_append]
      exact ih h

private theorem along_push {s : Stack} (hs : s ≠ []) (name : String) (ts : List Token)
    (f : List String → Token → List α) :
    along f (⟨some name, 0, ts⟩ :: s) = ts.flatMap (f (name :: s.painted)) ++ s.along f := by
  simp only [along, painted_push hs]

end

/-! ## How many streams are live -/

/-- Fewer names are painted than there are streams. -/
private theorem length_painted_lt {s : Stack} (hs : s ≠ []) : s.painted.length < s.length := by
  induction s with
  | nil => exact absurd rfl hs
  | cons f fs ih =>
    cases fs with
    | nil => simp [painted]
    | cons g gs =>
      have hlt := ih (by simp)
      -- A stream paints one name at most, and the input none.
      have howner : f.owner.toList.length ≤ 1 := by cases f.owner <;> simp
      simp only [painted, List.length_append, List.length_cons] at hlt ⊢
      omega

/-- Every stream but the last is the replacement of a macro. -/
def Owned (s : Stack) : Prop :=
  s.length = s.painted.length + 1

/-- Reading leaves every stream but the last the replacement of a macro. -/
private theorem Advances.owned {s s' : Stack} (h : Advances s s') (hs : s.Owned) : s'.Owned := by
  induction h with
  | refl => exact hs
  | @drop f fs _ _ more _ ih =>
    apply ih
    -- The stream that is dropped has an owner, for otherwise too few names would be painted.
    cases fs with
    | nil => exact absurd rfl more
    | cons g gs =>
      have hlt := length_painted_lt more
      have howner : f.owner.toList.length ≤ 1 := by cases f.owner <;> simp
      simp only [Owned, painted, List.length_append, List.length_cons] at hs hlt ⊢
      omega
  | read _ _ ih =>
    apply ih
    unfold Owned at hs ⊢
    rw [painted_read]
    exact hs

end Stack

/-! ## One step -/

/-- The token stays as it is: it is no name to be expanded, or one that is not defined. -/
def MacroTable.Leaves (table : MacroTable) (t : Token) : Prop :=
  t.isOpen = true → table.find? t.value = none

/-- Only object-like macros are found in a table of such. -/
private theorem MacroTable.Objects.eq_object {table : MacroTable} (hobj : table.Objects)
    {name : String} {m : Macro} (h : table.find? name = some m) : m = .object name m.body := by
  obtain ⟨other, body, rfl⟩ := hobj m (List.mem_of_find?_eq_some h)
  have hname : other = name := name_of_find? h
  rw [hname]
  rfl

/-- A token that does not stay is the name of an object-like macro. -/
private theorem MacroTable.Objects.object_of_not_leaves {table : MacroTable} (hobj : table.Objects)
    {u : Token} (h : ¬table.Leaves u) :
    u.isOpen = true ∧ ∃ body, table.find? u.value = some (.object u.value body) := by
  obtain ⟨hopen, hfound⟩ := Classical.not_imp.1 h
  obtain ⟨m, hm⟩ := Option.ne_none_iff_exists'.1 hfound
  exact ⟨hopen, m.body, hm.trans (congrArg some (hobj.eq_object hm))⟩

namespace Expander

/-- Locating tokens anew does not change their looks. -/
private theorem map_look_relocated (m : Macro) (site : Token) (ts : List Token) :
    (relocated m site ts).map Token.look = ts.map Token.look := by
  cases ts with
  | nil => rfl
  | cons t ts =>
    simp only [relocated, withWhiteOf, List.map_cons, List.map_map]
    rfl

private theorem length_relocated (m : Macro) (site : Token) (ts : List Token) :
    (relocated m site ts).length = ts.length := by
  rw [← List.length_map Token.look, map_look_relocated, List.length_map]

/-- Without a next token the expansion is finished. -/
private theorem move_of_next?_none {x : Expander} (h : x.stack.next? = none) (env : Expansion) :
    x.move env = .finish { x with stack := x.stack.settle } := by
  unfold move
  rw [h]

/-- A token that stays is emitted, also where there are other macros. -/
private theorem move_of_leaves {x : Expander} {env : Expansion} {u : Token} {s : Stack}
    (h : x.stack.next? = some (u, s)) (hcond : env.condition = false)
    (hleaves : env.macros.Leaves u) : x.move env = .emit u { x with stack := s } := by
  unfold move
  rw [h]
  simp only [hcond, Bool.false_and, Bool.false_eq_true, if_false]
  -- Either there is no macro of that name, or the token is no name that can be replaced.
  by_cases hopen : u.isOpen = true
  · rw [hleaves hopen]
    simp only [ite_self]
  · have hclosed : (!u.isName || !u.expandable) = true := by
      rw [← Bool.not_and, Bool.not_eq_true', ← Bool.not_eq_true]
      exact hopen
    rw [if_pos hclosed]

/-- A name of an object-like macro is invoked without arguments. -/
private theorem move_of_object {x : Expander} {env : Expansion} {u : Token} {s : Stack}
    {body : List Token} (h : x.stack.next? = some (u, s)) (hcond : env.condition = false)
    (hopen : u.isOpen = true) (hfound : env.macros.find? u.value = some (.object u.value body)) :
    x.move env = .invoke (.object u.value body) u [] { x with stack := s } := by
  unfold move
  rw [h]
  have hname : ¬(!u.isName || !u.expandable) = true := by
    simpa [Token.isOpen] using hopen
  simp only [hcond, Bool.false_and, Bool.false_eq_true, if_false, hfound]
  rw [if_neg hname]
  rfl

/-- With object-like macros only there are three moves: the end, a token that stays, and a name that
is replaced by its body. -/
private theorem objects_cases {env : Expansion} (hobj : env.macros.Objects)
    (hcond : env.condition = false) (x : Expander) :
    (x.stack.next? = none ∧ x.move env = .finish { x with stack := x.stack.settle }) ∨
    (∃ u s, x.stack.next? = some (u, s) ∧ env.macros.Leaves u ∧
      x.move env = .emit u { x with stack := s }) ∨
    ∃ u s body, x.stack.next? = some (u, s) ∧ u.isOpen = true ∧
      env.macros.find? u.value = some (.object u.value body) ∧
      x.move env = .invoke (.object u.value body) u [] { x with stack := s } := by
  cases hnext : x.stack.next? with
  | none => exact .inl ⟨rfl, move_of_next?_none hnext env⟩
  | some r =>
    obtain ⟨u, s⟩ := r
    by_cases hleaves : env.macros.Leaves u
    · exact .inr (.inl ⟨u, s, rfl, hleaves, move_of_leaves hnext hcond hleaves⟩)
    · obtain ⟨hopen, body, hfound⟩ := hobj.object_of_not_leaves hleaves
      have hmove := move_of_object hnext hcond hopen hfound
      exact .inr (.inr ⟨u, s, body, rfl, hopen, hfound, hmove⟩)

end Expander

namespace Stack

section

variable {α : Type} {table : MacroTable} {keep : Token → List α} {enter : List Token → List α}
variable {s s' : Stack} {u : Token}

/-- Emitting a token takes that token off what the stack stands for. -/
private theorem along_of_leaves (h : s.next? = some (u, s')) (hleaves : table.Leaves u) :
    s.along (table.walk keep enter) = keep u ++ s'.along (table.walk keep enter) := by
  rw [along_of_next? h]
  by_cases hopen : u.isOpen = true
  · obtain ⟨hname, hexp⟩ := Token.isOpen_iff.1 hopen
    have hfree := marks_of_next? h u (by simp) hname hexp
    rw [MacroTable.walk_of_find?_none hfree (hleaves hopen)]
  · rw [MacroTable.walk_of_closed (by simpa using hopen)]

/-- Replacing a name puts back what it stands for, after its body has been entered. -/
private theorem along_of_object {β : Type} {view : α → β} {body : List Token}
    (hkeep : ∀ t u : Token, t.look = u.look → (keep t).map view = (keep u).map view)
    (h : s.next? = some (u, s')) (hopen : u.isOpen = true)
    (hfound : table.find? u.value = some (.object u.value body)) :
    (s.along (table.walk keep enter)).map view =
      (enter body).map view ++
      (along (table.walk keep enter)
        (⟨some u.value, 0, Expander.relocated (.object u.value body) u body⟩ :: s')).map view := by
  obtain ⟨hname, hexp⟩ := Token.isOpen_iff.1 hopen
  have hfree := marks_of_next? h u (by simp) hname hexp
  have hs : s ≠ [] := by
    rintro rfl
    simp [next?] at h
  have hs' := (advances_of_next? h).ne_nil hs
  -- The body is located anew, which does not change what it stands for.
  have hlooks := Expander.map_look_relocated (.object u.value body) u body
  rw [along_of_next? h, MacroTable.walk_of_find?_some hopen hfree hfound, along_push hs']
  simp only [List.map_append, List.append_assoc]
  rw [MacroTable.flatMap_walk_congr hkeep hlooks]
  rfl

end

/-- The looks of the tokens that a stack stands for. -/
def text (table : MacroTable) (s : Stack) : List (Kind × String × Bool) :=
  (s.along table.unfolded).map Token.look

/-- The length of the bodies that are put in for the names on a stack. -/
def cost (table : MacroTable) (s : Stack) : Nat :=
  (s.along table.substituted).flatten.length

section

variable {table : MacroTable} {s s' : Stack} {u : Token}

/-- A token that stays is the first of the text. -/
private theorem text_of_leaves (h : s.next? = some (u, s')) (hleaves : table.Leaves u) :
    s.text table = u.look :: s'.text table := by
  unfold text MacroTable.unfolded
  rw [along_of_leaves h hleaves]
  rfl

/-- A token that stays costs nothing. -/
private theorem cost_of_leaves (h : s.next? = some (u, s')) (hleaves : table.Leaves u) :
    s.cost table = s'.cost table := by
  unfold cost MacroTable.substituted
  rw [along_of_leaves h hleaves]
  rfl

/-- Replacing a name leaves the text as it is. -/
private theorem text_of_object {body : List Token} (h : s.next? = some (u, s'))
    (hopen : u.isOpen = true) (hfound : table.find? u.value = some (.object u.value body)) :
    s.text table =
      text table (⟨some u.value, 0, Expander.relocated (.object u.value body) u body⟩ :: s') := by
  have hkeep : ∀ t u : Token, t.look = u.look → [t].map Token.look = [u].map Token.look := by
    intro t u hlook
    simp only [List.map_cons, List.map_nil, hlook]
  exact along_of_object hkeep h hopen hfound

/-- Replacing a name costs its body. -/
private theorem cost_of_object {body : List Token} (h : s.next? = some (u, s'))
    (hopen : u.isOpen = true) (hfound : table.find? u.value = some (.object u.value body)) :
    s.cost table = body.length +
      cost table (⟨some u.value, 0, Expander.relocated (.object u.value body) u body⟩ :: s') := by
  -- For the cost nothing is kept of a token.
  have hkeep : ∀ t u : Token, t.look = u.look → ([] : List (List Token)).map id = [].map id :=
    fun _ _ _ => rfl
  have halong := @along_of_object _ _ _ (fun body => [body]) _ _ _ _ _ _ hkeep h hopen hfound
  simp only [List.map_id] at halong
  unfold cost MacroTable.substituted
  rw [halong, List.flatten_append, List.length_append]
  simp only [List.flatten_singleton]

end

end Stack

/-! ## A whole run -/

namespace Expansion

/-- With object-like macros only, there are no arguments to be expanded. -/
private theorem not_enters_of_objects {p q : Point} (hobj : p.env.macros.Objects) :
    ¬Enters p q := by
  intro henter
  cases henter with
  | @mk m site args y _ _ hmove hopens =>
    have hinv := Expander.invokes_of_move hmove
    have haccepts := hinv.accepts
    rw [hobj.eq_object hinv.found] at haccepts
    -- An object-like macro has no arguments to enter.
    have hnone : args = [] := by simpa [Macro.accepts, Macro.signature?] using haccepts
    rw [hnone] at hopens
    cases hopens

/-- What a run with object-like macros keeps: nothing waits, each stream but the input is the
replacement of a macro, and these macros are distinct. -/
structure Point.Flat (env : Expansion) (p : Point) : Prop where
  env_eq : p.env = env
  waiting : p.waiting = []
  nonempty : p.state.stack ≠ []
  owned : p.state.stack.Owned
  distinct : p.Distinct

/-- At the start there is the input only. -/
private theorem Point.flat_start (env : Expansion) (x : Expander) (ts : List Token) :
    (Point.start env x ts).Flat env where
  env_eq := rfl
  waiting := rfl
  nonempty := List.cons_ne_nil _ _
  owned := rfl
  distinct := ⟨List.nodup_nil, by simp [Point.start, paintedOn, Stack.painted]⟩

/-- A step keeps this, since no argument is ever expanded. -/
private theorem Step.flat {env : Expansion} {p q : Point} (h : Step p q) (hobj : env.macros.Objects)
    (hp : p.Flat env) : q.Flat env := by
  have hfree : ∀ name, p.Replaces name → name ∉ paintedOn p.waiting := by
    intro name _
    simp [hp.waiting, paintedOn]
  have hdistinct := h.distinct hp.distinct hp.nonempty hfree
  have hnonempty := h.stack_ne_nil hp.nonempty
  cases h with
  -- Reading may end contexts, and then their names are painted no more.
  | emit hmove =>
    have howned := (Expander.advances_of_move_emit hmove).owned hp.owned
    exact ⟨hp.env_eq, hp.waiting, hnonempty, howned, hdistinct⟩
  -- One context is opened, for a name that was not painted.
  | replace hmove hreplace =>
    have hadv := (Expander.invokes_of_move hmove).advances
    have howned := hadv.owned hp.owned
    obtain ⟨_, _, _, hr⟩ := Expander.replaced_of_replace hreplace
    refine ⟨hp.env_eq, hp.waiting, hnonempty, ?_, hdistinct⟩
    simp only [Stack.Owned, hr.stack, Stack.painted_push (hadv.ne_nil hp.nonempty),
      List.length_cons] at howned ⊢
    omega
  | enter henter => exact absurd henter (not_enters_of_objects (hp.env_eq ▸ hobj))

/-- There is a stream for each painted name and one for the input, and a name that is invoked is
none of the painted ones: so there is room for it if there is a stream for each macro. -/
theorem Point.Flat.length_le {env : Expansion} {p : Point} (hp : p.Flat env) {m : Macro}
    {site : Token} {args : List (List Token)} {y : Expander}
    (hmove : p.state.move p.env = .invoke m site args y) :
    y.stack.length ≤ env.macros.macros.length := by
  have hinv := Expander.invokes_of_move hmove
  have hsub := hinv.advances.painted_suffix.sublist
  have hnodup : (site.value :: y.stack.painted).Nodup := by
    have hall : p.state.stack.painted.Nodup := by
      simpa [hp.waiting, paintedOn] using hp.distinct.nodup
    exact List.nodup_cons.2 ⟨hinv.unpainted, hall.sublist hsub⟩
  have hdefined : ∀ name, p.env.macros.isDefined name = true → name ∈ env.macros.names := by
    intro name hname
    rw [hp.env_eq, MacroTable.isDefined, List.any_eq_true] at hname
    obtain ⟨n, hn, heq⟩ := hname
    exact List.mem_map.2 ⟨n, hn, by simpa using heq⟩
  -- So the painted names and the new one are distinct names of the table.
  have hnames : site.value :: y.stack.painted ⊆ env.macros.names := by
    intro name hname
    apply hdefined
    cases List.mem_cons.1 hname with
    | inl heq => exact heq ▸ MacroTable.isDefined_of_find? hinv.found
    | inr hmem =>
      apply hp.distinct.defined
      simpa [hp.waiting, paintedOn] using hsub.subset hmem
  -- Counting them gives the bound.
  have hlength := (hnodup.subperm hnames).length_le
  have howned : y.stack.length = y.stack.painted.length + 1 := hinv.advances.owned hp.owned
  simp only [List.length_cons, MacroTable.names, List.length_map] at hlength
  omega

/-- An expansion that succeeds gives the text of its stack, has produced its cost, and leaves no
name that could be replaced. -/
private theorem expandFrom_of_objects {env : Expansion} (hobj : env.macros.Objects)
    (hcond : env.condition = false) (p : Point) (hp : p.Flat env) (out : List Token)
    (hout : ∀ t ∈ out, env.macros.Leaves t) {res : List Token} {y : Expander}
    (h : expandFrom env p.state out = .ok res y) :
    res.map Token.look = out.reverse.map Token.look ++ p.state.stack.text env.macros ∧
      y.produced = p.state.produced + p.state.stack.cost env.macros ∧
      ∀ t ∈ res, env.macros.Leaves t := by
  -- The text and the cost of the stack are what the steps carry over into the result.
  induction p using run_induction generalizing out with
  | step p ih =>
    obtain rfl := hp.env_eq
    rcases Expander.objects_cases hobj hcond p.state with
      ⟨hnext, hmove⟩ | ⟨u, s, hnext, hleaves, hmove⟩ | ⟨u, s, body, hnext, hopen, hfound, hmove⟩
    · rw [expandFrom_of_move_finish hmove] at h
      simp only [Expanded.ok.injEq] at h
      obtain ⟨rfl, rfl⟩ := h
      simp only [Stack.text, Stack.cost, Stack.along_of_next?_none hnext, List.map_nil,
        List.append_nil, List.flatten_nil, List.length_nil, Nat.add_zero, true_and]
      intro t ht
      exact hout t (List.mem_reverse.1 ht)
    · have hstep : Step p { p with state := { p.state with stack := s } } := .emit hmove
      have hout' := List.forall_mem_cons.2 ⟨hleaves, hout⟩
      rw [expandFrom_of_move_emit hmove] at h
      obtain ⟨htext, hcost, hres⟩ := ih _ hstep (hstep.flat hobj hp) (u :: out) hout' h
      refine ⟨?_, ?_, hres⟩
      · rw [htext, Stack.text_of_leaves hnext hleaves]
        simp only [List.reverse_cons, List.map_append, List.map_cons, List.map_nil,
          List.append_assoc, List.cons_append, List.nil_append]
      · rw [hcost, Stack.cost_of_leaves hnext hleaves]
    · rw [expandFrom_of_move_invoke hmove] at h
      cases hreplace : Expander.replace { p.state with stack := s } p.env
          (.object u.value body) u [] with
      | error e z => simp [hreplace] at h
      | ok _ z =>
        simp only [hreplace] at h
        have hstep : Step p { p with state := z } := .replace hmove hreplace
        obtain ⟨htext, hcost, hres⟩ := ih _ hstep (hstep.flat hobj hp) out hout h
        rw [Expander.replace_object] at hreplace
        obtain ⟨rfl, -, -⟩ := Expander.of_push hreplace
        refine ⟨?_, ?_, hres⟩
        · rw [htext, Stack.text_of_object hnext hopen hfound]
        · rw [hcost, Stack.cost_of_object hnext hopen hfound]
          simp only [Expander.length_relocated]
          omega

/-- With a stream for each macro, an expansion succeeds if its cost is within the limit, and is too
long otherwise. -/
private theorem expandFrom_of_length_lt {env : Expansion} (hobj : env.macros.Objects)
    (hcond : env.condition = false)
    (hdepth : (env.macros.macros.length + env.waiting : Int) < env.maxDepth)
    (p : Point) (hp : p.Flat env) (hroom : (p.state.produced : Int) ≤ env.maxTokens)
    (out : List Token) :
    if ((p.state.produced + p.state.stack.cost env.macros : Nat) : Int) ≤ env.maxTokens then
      ∃ res y, expandFrom env p.state out = .ok res y
    else ∃ name y, expandFrom env p.state out = .error (.length env.maxTokens name) y := by
  induction p using run_induction generalizing out with
  | step p ih =>
    obtain rfl := hp.env_eq
    rcases Expander.objects_cases hobj hcond p.state with
      ⟨hnext, hmove⟩ | ⟨u, s, hnext, hleaves, hmove⟩ | ⟨u, s, body, hnext, hopen, hfound, hmove⟩
    · rw [expandFrom_of_move_finish hmove, if_pos]
      · exact ⟨_, _, rfl⟩
      · simpa [Stack.cost, Stack.along_of_next?_none hnext] using hroom
    · have hstep : Step p { p with state := { p.state with stack := s } } := .emit hmove
      rw [expandFrom_of_move_emit hmove, Stack.cost_of_leaves hnext hleaves]
      exact ih _ hstep (hstep.flat hobj hp) hroom (u :: out)
    · have hlength : s.length ≤ p.env.macros.macros.length := hp.length_le hmove
      have hcost := Stack.cost_of_object hnext hopen hfound
      have hreplace := Expander.replace_object { p.state with stack := s } p.env u.value body u
      -- There is a stream for the name, so only the limit on tokens can be exceeded.
      have hshallow : ¬p.env.maxDepth ≤ s.length + p.env.waiting := by omega
      rw [Expander.push, if_neg hshallow, Expander.length_relocated] at hreplace
      rw [expandFrom_of_move_invoke hmove]
      by_cases hlong : p.env.maxTokens < ((p.state.produced + body.length : Nat) : Int)
      · -- This body alone exceeds the limit, so the whole cost does.
        rw [if_pos hlong] at hreplace
        rw [hreplace, if_neg (by omega)]
        exact ⟨_, _, rfl⟩
      · rw [if_neg hlong] at hreplace
        have hstep := Step.replace hmove hreplace
        have hnow := ih _ hstep (hstep.flat hobj hp) (Int.not_lt.1 hlong) out
        rw [hreplace, hcost, ← Nat.add_assoc]
        exact hnow

/-- Tokens that stay as they are are expanded to themselves. -/
private theorem expandFrom_of_leaves {env : Expansion} (hcond : env.condition = false)
    (x : Expander) (consumed : Nat) (ts : List Token) (hts : ∀ t ∈ ts, env.macros.Leaves t)
    (out : List Token) :
    ∃ y, expandFrom env { x with stack := [⟨none, consumed, ts⟩] } out =
      .ok (out.reverse ++ ts) y := by
  induction ts generalizing consumed out with
  -- What has been given out is in the reverse order.
  | nil =>
    rw [expandFrom_of_move_finish (Expander.move_of_next?_none rfl env), List.append_nil]
    exact ⟨_, rfl⟩
  | cons t ts ih =>
    obtain ⟨hleaves, hrest⟩ := List.forall_mem_cons.1 hts
    have hnext : Stack.next? [⟨none, consumed, t :: ts⟩] =
        some (t, [⟨none, consumed + 1, ts⟩]) := by
      simp [Stack.next?, Stack.paint, Stack.painted]
    obtain ⟨y, hy⟩ := ih (consumed + 1) hrest (t :: out)
    refine ⟨y, ?_⟩
    rw [expandFrom_of_move_emit (Expander.move_of_leaves hnext hcond hleaves), hy]
    simp only [List.reverse_cons, List.append_assoc, List.cons_append, List.nil_append]

/-- With object-like macros only, an expansion that succeeds gives what its tokens stand for, apart
from where they stand, and expanding that once more changes nothing. If more streams may be live
than there are macros, it succeeds exactly if the bodies that are put in are within the limit, is
too long exactly if they are not, and is never too deep. -/
theorem expand_objects {env : Expansion} (hobj : env.macros.Objects)
    (hcond : env.condition = false) (x : Expander) (hroom : (x.produced : Int) ≤ env.maxTokens)
    (ts : List Token) :
    let total := (ts.flatMap (env.macros.substituted [])).flatten.length
    (∀ out y, x.expand env ts = .ok out y →
      out.map Token.look = (ts.flatMap (env.macros.unfolded [])).map Token.look ∧
      y.produced = x.produced + total ∧ ∀ x' : Expander, ∃ y', x'.expand env out = .ok out y') ∧
    ((env.macros.macros.length + env.waiting : Int) < env.maxDepth →
      ((∃ out y, x.expand env ts = .ok out y) ↔
        ((x.produced + total : Nat) : Int) ≤ env.maxTokens) ∧
      ((∃ name y, x.expand env ts = .error (.length env.maxTokens name) y) ↔
        env.maxTokens < ((x.produced + total : Nat) : Int)) ∧
      ∀ limit name y, x.expand env ts ≠ .error (.depth limit name) y) := by
  intro total
  have hflat := Point.flat_start env x ts
  have hcost : (Point.start env x ts).state.stack.cost env.macros = total := by
    simp [Point.start, Stack.cost, Stack.along, Stack.painted, total]
  constructor
  · -- What comes out holds no name that could be replaced, so a second expansion does nothing.
    intro out y h
    obtain ⟨htext, hproduced, hleaves⟩ := expandFrom_of_objects hobj hcond _ hflat [] (by simp) h
    refine ⟨?_, ?_, ?_⟩
    · simpa [Point.start, Stack.text, Stack.along, Stack.painted] using htext
    · rw [hproduced, hcost]
      rfl
    · intro x'
      exact expandFrom_of_leaves hcond x' 0 out hleaves []
  · intro hdepth
    have hend := expandFrom_of_length_lt hobj hcond hdepth _ hflat hroom []
    rw [hcost] at hend
    change if ((x.produced + total : Nat) : Int) ≤ env.maxTokens then
      ∃ out y, x.expand env ts = .ok out y
      else ∃ name y, x.expand env ts = .error (.length env.maxTokens name) y at hend
    by_cases hle : ((x.produced + total : Nat) : Int) ≤ env.maxTokens
    · rw [if_pos hle] at hend
      obtain ⟨res, y, hok⟩ := hend
      refine ⟨iff_of_true ⟨res, y, hok⟩ hle, iff_of_false ?_ (Int.not_lt.2 hle), ?_⟩
      · simp [hok]
      · simp [hok]
    · rw [if_neg hle] at hend
      obtain ⟨name, y, herr⟩ := hend
      refine ⟨iff_of_false ?_ hle, iff_of_true ⟨name, y, herr⟩ (Int.not_le.1 hle), ?_⟩
      · simp [herr]
      · simp [herr]

namespace Cyclic

/-- The macro `A` stands for `B B`, and `B` for `A`. -/
def env : Expansion :=
  { macros := { macros := [.object "A" [.word "B", .word "B"], .object "B" [.word "A"]] } }

/-- Both macros are object-like. -/
private theorem objects : env.macros.Objects := by
  intro m hm
  simp only [env, List.mem_cons, List.not_mem_nil, or_false] at hm
  rcases hm with rfl | rfl
  · exact ⟨_, _, rfl⟩
  · exact ⟨_, _, rfl⟩

end Cyclic

open Cyclic in
/-- Each `B` is replaced by an `A` that is painted; three bodies with four tokens are put in. -/
theorem expand_objects_cyclic :
    ∃ out y, Expander.expand {} env [.word "A"] = .ok out y ∧ y.produced = 4 ∧
      out.map Token.look = [(.identifier, "A", false), (.identifier, "A", false)] := by
  obtain ⟨hresult, hlimits⟩ := expand_objects objects rfl {} (by decide) [.word "A"]
  -- The output is computed without the expander.
  have htotal : ([Token.word "A"].flatMap (env.macros.substituted [])).flatten.length = 4 := by
    cbv
  have htext : ([Token.word "A"].flatMap (env.macros.unfolded [])).map Token.look =
      [(.identifier, "A", false), (.identifier, "A", false)] := by
    cbv
  obtain ⟨hends, -, -⟩ := hlimits (by decide)
  obtain ⟨out, y, hok⟩ := hends.2 (by rw [htotal]; decide)
  obtain ⟨hout, hproduced, -⟩ := hresult out y hok
  rw [htotal] at hproduced
  exact ⟨out, y, hok, hproduced, hout.trans htext⟩

end Expansion

end Preproc
