import Preproc.Context

/-!
# Structured conditionals

Code with properly nested groups is a tree: lines of text and groups, where each branch of a group
is code again. The tree tells which lines count without any state: those for which in every group
around them their branch is the first whose condition holds, or the last one if none does.

The open groups work on single lines, one after the other, and look only at the innermost group.
`feed_flatten` says that they come to the same result: fed with the lines of a tree, each line of
text sees what the tree says, the conditions that could matter are asked for, in order and once, and
the open groups are in the end what they were.

## Key results

- `leads_opens`, `leads_elif`, `leads_otherwise`, `leads_endif`: what one line does
- `leads_code`, `leads_branches`: what the lines of a tree do, wherever it stands
- `feed_flatten`: lines of a tree lead to what the tree says
-/

namespace Preproc

/-- What is known, with other open groups. -/
def Context.withGroups (c : Context) (x : Conditionals) : Context :=
  { c with conditionals := x }

namespace Structured

/-! ## Trees -/

/-- A condition with a fixed answer. Asking for it may change what is known, but neither reads nor
changes the open groups. -/
structure Condition where
  holds : Bool
  effect : Context → Context
  blind : ∀ (c : Context) (x : Conditionals),
    effect (c.withGroups x) = (effect c).withGroups x

mutual

/-- Lines of text and groups. -/
inductive Code where
  | nil
  | text (after : Code)
  /-- A group: its first branch, and what follows that in the group. -/
  | group (condition : Condition) (body : Code) (more : Branches) (after : Code)

/-- The branches of a group after the first. -/
inductive Branches where
  | endif
  | otherwise (body : Code)
  | elif (condition : Condition) (body : Code) (more : Branches)

end

/-- A branch as seen from inside: the conditions of the branches before it in its group, and its
own, unless it is the last branch that has none. -/
structure Alternative where
  earlier : List Condition
  own : Option Condition

/-- Whether the branch is the first of its group whose condition holds; the branch without a
condition is, if no other is. -/
def Alternative.taken (a : Alternative) : Bool :=
  a.earlier.all (!·.holds) && a.own.all (·.holds)

/-- Where a condition stands: the branches around its group, innermost first, and the conditions
before it in its group. -/
structure Site where
  around : List Alternative
  earlier : List Condition
  condition : Condition

/-- Whether the answer to the condition matters: its group is in code that counts, and no condition
before it in the group holds. -/
def Site.matters (s : Site) : Bool :=
  s.around.all (·.taken) && s.earlier.all (!·.holds)

mutual

/-- The branches around each line of text, innermost first, where those of `around` are around the
code. -/
def Code.places (around : List Alternative) : Code → List (List Alternative)
  | .nil => []
  | .text after => around :: after.places around
  | .group q body more after =>
    body.places (⟨[], some q⟩ :: around) ++ (more.places around [q] ++ after.places around)

/-- The branches around each line of text in the further branches of a group, after branches with
the conditions `earlier`. -/
def Branches.places (around : List Alternative) (earlier : List Condition) :
    Branches → List (List Alternative)
  | .endif => []
  | .otherwise body => body.places (⟨earlier, none⟩ :: around)
  | .elif q body more =>
    body.places (⟨earlier, some q⟩ :: around) ++ more.places around (earlier ++ [q])

end

mutual

/-- The conditions of the code, in order. -/
def Code.sites (around : List Alternative) : Code → List Site
  | .nil => []
  | .text after => after.sites around
  | .group q body more after =>
    ⟨around, [], q⟩ :: (body.sites (⟨[], some q⟩ :: around) ++ (more.sites around [q] ++
      after.sites around))

/-- The conditions of the further branches of a group, in order. -/
def Branches.sites (around : List Alternative) (earlier : List Condition) : Branches → List Site
  | .endif => []
  | .otherwise body => body.sites (⟨earlier, none⟩ :: around)
  | .elif q body more =>
    ⟨around, earlier, q⟩ :: (body.sites (⟨earlier, some q⟩ :: around) ++
      more.sites around (earlier ++ [q]))

end

/-! ## Lines -/

/-- A line, as far as groups are concerned. -/
inductive CodeLine where
  | text
  | opens (condition : Condition)
  | elif (condition : Condition)
  | otherwise
  | endif

mutual

/-- The lines of the code. -/
def Code.flatten : Code → List CodeLine
  | .nil => []
  | .text after => .text :: after.flatten
  | .group q body more after => .opens q :: (body.flatten ++ (more.flatten ++ after.flatten))

/-- The lines of the further branches of a group, up to the one that closes it. -/
def Branches.flatten : Branches → List CodeLine
  | .endif => [.endif]
  | .otherwise body => .otherwise :: (body.flatten ++ [.endif])
  | .elif q body more => .elif q :: (body.flatten ++ more.flatten)

end

/-- Asks for the condition. -/
def Condition.ask (q : Condition) : ContextM Bool := do
  modify q.effect
  pure q.holds

/-- Carries out a line. A line of text tells whether it counts. -/
def CodeLine.feed : CodeLine → ContextM (List Bool)
  | .text => do pure [(← get).conditionals.active]
  | .opens q => do
    Context.openGroup q.ask
    pure []
  | .elif q => do
    Context.elifBranch q.ask
    pure []
  | .otherwise => do
    Context.setConditionals (← get).conditionals.otherwise?
    pure []
  | .endif => do
    Context.setConditionals ((← get).conditionals.endif?.map fun c => ⟨c, []⟩)
    pure []

/-- Carries out lines, and gives what the lines of text tell. -/
def feed : List CodeLine → ContextM (List Bool)
  | [] => pure []
  | l :: ls => do
    let seen ← l.feed
    (seen ++ ·) <$> feed ls

/-- A line and those after it are carried out one after the other. -/
theorem feed_cons {l : CodeLine} {ls : List CodeLine} {c c₁ c₂ : Context} {s t : List Bool}
    (hl : l.feed c = .ok s c₁) (hls : feed ls c₁ = .ok t c₂) :
    feed (l :: ls) c = .ok (s ++ t) c₂ := by
  unfold feed
  rw [ContextM.bind_of_ok hl, map_eq_pure_bind, ContextM.bind_of_ok hls]
  rfl

/-- Lines and those after them are carried out one after the other. -/
theorem feed_append {xs ys : List CodeLine} {c c₁ c₂ : Context} {s t : List Bool}
    (hxs : feed xs c = .ok s c₁) (hys : feed ys c₁ = .ok t c₂) :
    feed (xs ++ ys) c = .ok (s ++ t) c₂ := by
  induction xs generalizing c s with
  | nil =>
    have hnil : EStateM.Result.ok [] c = .ok s c₁ := hxs
    cases hnil
    exact hys
  | cons l ls ih =>
    -- The first line is fed, and then the others, of which the induction tells.
    unfold feed at hxs
    obtain ⟨u, c', hl, hls⟩ := ContextM.bind_eq_ok_iff.1 hxs
    rw [map_eq_pure_bind] at hls
    obtain ⟨v, c'', hls, hend⟩ := ContextM.bind_eq_ok_iff.1 hls
    cases hend
    rw [List.append_assoc]
    exact feed_cons hl (ih hls)

/-! ## From groups to groups -/

/-- What is known after all of the conditions have been asked for, in order. -/
def asking (qs : List Condition) (c : Context) : Context :=
  qs.foldl (fun c q => q.effect c) c

/-- Asking for conditions leaves the open groups, whatever they are. -/
private theorem asking_withGroups (qs : List Condition) (c : Context) (x : Conditionals) :
    asking qs (c.withGroups x) = (asking qs c).withGroups x := by
  induction qs generalizing c with
  | nil => rfl
  | cons q qs ih =>
    show asking qs (q.effect (c.withGroups x)) = _
    rw [q.blind, ih]
    rfl

/-- Asking for conditions leaves the open groups. -/
private theorem conditionals_asking (qs : List Condition) (c : Context) :
    (asking qs c).conditionals = c.conditionals := by
  have h : asking qs c = (asking qs c).withGroups c.conditionals :=
    asking_withGroups qs c c.conditionals
  rw [h]
  rfl

/-- The lines lead from the open groups `x` to `y`: the lines of text see `seen`, the conditions
`asked` are asked for, in order, and nothing else happens. -/
def Leads (lines : List CodeLine) (x : Conditionals) (seen : List Bool) (asked : List Condition)
    (y : Conditionals) : Prop :=
  ∀ c : Context, c.conditionals = x → feed lines c = .ok seen ((asking asked c).withGroups y)

/-- Lines that lead from one place to the next can be put together. -/
theorem Leads.append {xs ys : List CodeLine} {x y z : Conditionals} {s t : List Bool}
    {qs rs : List Condition} (hxs : Leads xs x s qs y) (hys : Leads ys y t rs z) :
    Leads (xs ++ ys) x (s ++ t) (qs ++ rs) z := by
  intro c hc
  have hask : asking (qs ++ rs) c = asking rs (asking qs c) := List.foldl_append
  have h := hys ((asking qs c).withGroups y) rfl
  rw [asking_withGroups] at h
  rw [hask]
  exact feed_append (hxs c hc) h

/-! ## What a line does -/

/-- Without a line nothing changes. -/
theorem leads_nil (x : Conditionals) : Leads [] x [] [] x := by
  rintro c rfl
  rfl

/-- A line that gives nothing back leads to what carrying it out leads to. -/
private theorem leads_of_act {l : CodeLine} {act : ContextM Unit} {x y : Conditionals}
    {asked : List Condition} (hl : l.feed = do { act; pure [] })
    (hact : ∀ c : Context, c.conditionals = x → act c = .ok () ((asking asked c).withGroups y)) :
    Leads [l] x [] asked y := by
  intro c hc
  have hfeed : l.feed c = .ok [] ((asking asked c).withGroups y) := by
    rw [hl, ContextM.bind_of_ok (hact c hc)]
    rfl
  exact feed_cons hfeed rfl

/-- A line of text sees whether code counts, and changes nothing. -/
private theorem leads_text (x : Conditionals) : Leads [.text] x [x.active] [] x := by
  rintro c rfl
  exact feed_cons (s := [c.conditionals.active]) rfl rfl

/-- A line that opens a group asks for its condition if the code around it counts. -/
theorem leads_opens (q : Condition) (x : Conditionals) :
    Leads [.opens q] x [] (if x.active then [q] else []) (x.openGroup q.holds) := by
  apply leads_of_act rfl
  rintro c rfl
  unfold Context.openGroup
  rw [ContextM.get_bind]
  cases h : c.conditionals.active with
  | true =>
    -- The condition is asked for, which leaves the groups as they are.
    have hkeep : (q.effect c).conditionals = c.conditionals := conditionals_asking [q] c
    simp only [Conditionals.opensTested, h, if_true]
    show EStateM.Result.ok ()
      ((q.effect c).withGroups ((q.effect c).conditionals.openGroup q.holds)) = _
    rw [hkeep]
    rfl
  | false =>
    -- The answer makes no difference where nothing counts.
    have hsame : c.conditionals.openGroup q.holds = c.conditionals.openGroup false := by
      simp [Conditionals.openGroup, h]
    simp only [Conditionals.opensTested, h, hsame]
    rfl

/-- Groups that are set without a note change nothing else. -/
theorem setConditionals_pure (x : Conditionals) (c : Context) :
    Context.setConditionals (some (pure x)) c = .ok () (c.withGroups x) := by
  show EStateM.Result.ok () { c with notes := c.notes ++ #[], conditionals := x } = _
  rw [Array.append_empty]
  rfl

/-- The line that closes a group leads back to the groups around it. -/
theorem leads_endif (g : Group) (gs : List Group) : Leads [.endif] ⟨g :: gs⟩ [] [] ⟨gs⟩ := by
  intro c hc
  -- There is a group to close, so nothing is noted.
  have hpure : (c.conditionals.endif?.map fun c => (⟨c, []⟩ : Noted Conditionals)) =
      some (pure ⟨gs⟩) := by
    rw [hc]
    rfl
  have hfeed : CodeLine.endif.feed c = .ok [] (c.withGroups ⟨gs⟩) := by
    show (Context.setConditionals (c.conditionals.endif?.map fun c => ⟨c, []⟩) >>=
      fun _ => pure []) c = _
    rw [hpure, ContextM.bind_of_ok (setConditionals_pure _ c)]
    rfl
  exact feed_cons hfeed rfl

/-- A group in code that counts if `on` holds, when the branches with the conditions `earlier` are
behind it and its last branch is not. -/
structure Behind (g : Group) (on : Bool) (earlier : List Condition) : Prop where
  parent : g.parentActive = on
  notLast : g.seenElse = false
  awaiting : on = true → (g.state = .awaiting ↔ earlier.all (!·.holds) = true)

/-- A group that has been opened is behind its first branch. -/
private theorem behind_openGroup (x : Conditionals) (q : Condition) :
    ∃ g, x.openGroup q.holds = ⟨g :: x.groups⟩ ∧ Behind g x.active [q] ∧
      g.inActiveBranch = (x.active && (⟨[], some q⟩ : Alternative).taken) := by
  refine ⟨_, rfl, ?_, ?_⟩
  · constructor <;> grind
  · unfold Group.inActiveBranch Alternative.taken
    grind

/-- A line that starts a further branch asks for its condition if the code around the group counts
and no condition before it holds. The branch counts if then the condition holds. -/
theorem leads_elif {g : Group} {on : Bool} {earlier : List Condition} (h : Behind g on earlier)
    (gs : List Group) (q : Condition) :
    ∃ g' : Group, Leads [.elif q] ⟨g :: gs⟩ [] (if on && earlier.all (!·.holds) then [q] else [])
        ⟨g' :: gs⟩ ∧ Behind g' on (earlier ++ [q]) ∧
      g'.inActiveBranch = (on && (⟨earlier, some q⟩ : Alternative).taken) := by
  obtain ⟨hparent, hlast, hawaiting⟩ := h
  refine ⟨(Conditionals.elifGroup g q.holds).value, leads_of_act rfl ?_, ?_, ?_⟩
  · intro c hc
    -- The group asks for the condition as the tree does.
    have htested : c.conditionals.elifTested = (on && earlier.all (!·.holds)) := by
      unfold Conditionals.elifTested
      rw [hc]
      grind
    have hpure : ∀ holds, (c.conditionals.elifTested = true → holds = q.holds) →
        c.conditionals.elif? holds =
          some (pure ⟨(Conditionals.elifGroup g q.holds).value :: gs⟩) := by
      -- No note is made, and the answer makes no difference where it is not asked for.
      intro holds hholds
      rw [htested] at hholds
      have hgroup : Conditionals.elifGroup g holds =
          pure (Conditionals.elifGroup g q.holds).value := by
        unfold Conditionals.elifGroup
        grind [Noted.value_pure]
      unfold Conditionals.elif?
      rw [hc]
      simp only [hgroup]
      rfl
    unfold Context.elifBranch
    rw [ContextM.get_bind, ← htested]
    cases ht : c.conditionals.elifTested with
    | true =>
      have hkeep : (q.effect c).conditionals = c.conditionals := conditionals_asking [q] c
      simp only [if_true]
      show Context.setConditionals ((q.effect c).conditionals.elif? q.holds) (q.effect c) = _
      rw [hkeep, hpure q.holds (fun _ => rfl), setConditionals_pure]
      rfl
    | false =>
      show Context.setConditionals (c.conditionals.elif? false) c = _
      rw [hpure false (by simp [ht]), setConditionals_pure]
      rfl
  · unfold Conditionals.elifGroup
    constructor <;> grind [Noted.value_pure]
  · unfold Conditionals.elifGroup Group.inActiveBranch Alternative.taken
    grind [Noted.value_pure]

/-- The last branch is started without a condition, and counts if none before it holds. -/
theorem leads_otherwise {g : Group} {on : Bool} {earlier : List Condition}
    (h : Behind g on earlier) (gs : List Group) :
    ∃ g' : Group, Leads [.otherwise] ⟨g :: gs⟩ [] [] ⟨g' :: gs⟩ ∧
      g'.inActiveBranch = (on && (⟨earlier, none⟩ : Alternative).taken) := by
  obtain ⟨hparent, hlast, hawaiting⟩ := h
  refine ⟨(Conditionals.otherwiseGroup g).value, ?_, ?_⟩
  · intro c hc
    -- It is the first without a condition, so no note is made of it.
    have hgroup : Conditionals.otherwiseGroup g = pure (Conditionals.otherwiseGroup g).value := by
      unfold Conditionals.otherwiseGroup
      rw [hlast]
      cases g.state <;> rfl
    have hpure : c.conditionals.otherwise? =
        some (pure ⟨(Conditionals.otherwiseGroup g).value :: gs⟩) := by
      rw [hc]
      show some ((fun g' => (⟨g' :: gs⟩ : Conditionals)) <$> Conditionals.otherwiseGroup g) = _
      rw [hgroup]
      rfl
    have hfeed : CodeLine.otherwise.feed c =
        .ok [] (c.withGroups ⟨(Conditionals.otherwiseGroup g).value :: gs⟩) := by
      show (Context.setConditionals c.conditionals.otherwise? >>= fun _ => pure []) c = _
      rw [hpure, ContextM.bind_of_ok (setConditionals_pure _ c)]
      rfl
    exact feed_cons hfeed rfl
  · unfold Conditionals.otherwiseGroup Group.inActiveBranch Alternative.taken
    grind [Noted.value_pure]

/-! ## What the lines of a tree do -/

/-- Which of the lines of text at the given places count, in code that counts if `on` holds. -/
def seen (on : Bool) (places : List (List Alternative)) : List Bool :=
  places.map fun around => on && around.all (·.taken)

/-- Which of the conditions are asked for, in code that counts if `on` holds. -/
def heard (on : Bool) (sites : List Site) : List Condition :=
  (sites.filter fun s => on && s.matters).map (·.condition)

theorem seen_append (on : Bool) (xs ys : List (List Alternative)) :
    seen on (xs ++ ys) = seen on xs ++ seen on ys :=
  List.map_append

/-- Which conditions are asked for is told condition by condition. -/
theorem heard_append (on : Bool) (xs ys : List Site) :
    heard on (xs ++ ys) = heard on xs ++ heard on ys := by
  unfold heard
  rw [List.filter_append, List.map_append]

/-- A condition is asked for if the code around its group counts and none before it holds. -/
theorem heard_cons (on : Bool) (around : List Alternative) (earlier : List Condition)
    (q : Condition) (sites : List Site) :
    heard on (⟨around, earlier, q⟩ :: sites) =
      (if (on && around.all (·.taken)) && earlier.all (!·.holds) then [q] else []) ++
        heard on sites := by
  unfold heard Site.matters
  rw [Bool.and_assoc, List.filter_cons]
  split <;> rfl

/-- Code in a branch counts if the code around the group does and the branch is taken. -/
private theorem active_of_branch {g : Group} {on : Bool} {around : List Alternative}
    {a : Alternative} (h : g.inActiveBranch = ((on && around.all (·.taken)) && a.taken))
    (gs : List Group) :
    (⟨g :: gs⟩ : Conditionals).active = (on && (a :: around).all (·.taken)) := by
  show g.inActiveBranch = _
  rw [h, List.all_cons, Bool.and_assoc, Bool.and_comm (around.all _)]

mutual

/-- The lines of code, where the branches of `around` are around it. -/
theorem leads_code (on : Bool) (around : List Alternative) (x : Conditionals)
    (hx : x.active = (on && around.all (·.taken))) : ∀ code : Code,
    Leads code.flatten x (seen on (code.places around)) (heard on (code.sites around)) x
  | .nil => leads_nil x
  | .text after => by
    have htext := leads_text x
    rw [hx] at htext
    exact htext.append (leads_code on around x hx after)
  | .group q body more after => by
    -- The first branch is code inside of the group, what follows in the group starts behind that
    -- branch, and the code after the group finds the groups as they were.
    obtain ⟨g, hg, hbehind, hbranch⟩ := behind_openGroup x q
    have hopens := leads_opens q x
    rw [hx] at hbehind hbranch hopens
    rw [hg] at hopens
    have hbody := leads_code on _ _ (active_of_branch hbranch x.groups) body
    have hmore := leads_branches on around [q] g x.groups hbehind more
    have hafter := leads_code on around x hx after
    have h := hopens.append (hbody.append (hmore.append hafter))
    simp only [Code.places, Code.sites, seen_append, heard_append, heard_cons, List.all_nil,
      Bool.and_true]
    exact h

/-- The lines of the further branches of the group `g`, where the branches of `around` are around
the group. -/
theorem leads_branches (on : Bool) (around : List Alternative) (earlier : List Condition)
    (g : Group) (gs : List Group) (hg : Behind g (on && around.all (·.taken)) earlier) :
    ∀ more : Branches, Leads more.flatten ⟨g :: gs⟩ (seen on (more.places around earlier))
      (heard on (more.sites around earlier)) ⟨gs⟩
  | .endif => leads_endif g gs
  | .otherwise body => by
    obtain ⟨g', hlast, hbranch⟩ := leads_otherwise hg gs
    have hbody := leads_code on _ _ (active_of_branch hbranch gs) body
    have h := hlast.append (hbody.append (leads_endif g' gs))
    simp only [List.append_nil, List.nil_append] at h
    exact h
  | .elif q body more => by
    -- The condition of this branch is one of the earlier ones for those that follow.
    obtain ⟨g', helif, hbehind, hbranch⟩ := leads_elif hg gs q
    have hbody := leads_code on _ _ (active_of_branch hbranch gs) body
    have hmore := leads_branches on around (earlier ++ [q]) g' gs hbehind more
    have h := helif.append (hbody.append hmore)
    simp only [Branches.places, Branches.sites, seen_append, heard_append, heard_cons]
    exact h

end

/-- Groups that are properly nested work as the tree of them says. Whatever is open at the start,
in the end it is open again as it was; a line of text counts exactly if the code at the start does
and in every group around the line its branch is the first whose condition holds, or the last one
if none does; and the conditions that are asked for are those of groups in code that counts, up to
the first that holds, each once and in order. -/
theorem feed_flatten (code : Code) (c : Context) :
    let on := c.conditionals.active
    let asked := ((code.sites []).filter fun s => on && s.matters).map (·.condition)
    feed code.flatten c = .ok ((code.places []).map fun around => on && around.all (·.taken))
        (asking asked c) ∧
      (asking asked c).conditionals = c.conditionals := by
  intro on asked
  have hkeep := conditionals_asking asked c
  refine ⟨?_, hkeep⟩
  -- With nothing around it, the code counts as the code at the start does.
  have h := leads_code on [] c.conditionals (Bool.and_true on).symm code c rfl
  rw [← conditionals_asking asked c] at h
  exact h

end Structured

end Preproc
