import Mathlib.Data.List.Forall2
import Mathlib.Data.List.SplitBy
import Preproc.Token.Joined

/-!
# What joining string literals does

Adjacent string literals that are not raw are joined while the tokens are produced, so the literals
of a run are held until the token behind it is known. What comes of it is said without the joiner:
the tokens are split into groups, the longest runs of literals and the other tokens one by one, and
each group gives one token.

A joined literal is written anew, and its encoding and content are what a reader finds in its text:
they are shown to be those that were put together, whatever quotes the contents hold.

## Key results

- `joinStrings_eq`: joining is done group by group
- `joinsTo_of_together`: what the literals of a run are joined to
- `joinStrings_runs`: what joining gives, and that there is nothing left to be joined
-/

namespace Preproc

/-- Whether the token is a string literal that is not raw, so that it is joined to its
neighbours. -/
def Token.isJoinable (t : Token) : Bool :=
  t.kind = .string && !t.isRaw

/-- Whether two neighbours are joined. -/
def together (s t : Token) : Bool :=
  s.isJoinable && t.isJoinable

/-- The token that stands for a group of neighbours. A token that is not joined stands for itself.
A run of literals becomes one literal in the place of the first, with the first encoding that is not
empty and the contents of all; a literal that is alone is not touched. -/
inductive JoinsTo : List Token → Token → Prop
  | other {t : Token} (single : t.isJoinable = false) : JoinsTo [t] t
  | run {first t : Token} {more : List Token}
      (literals : ∀ s ∈ first :: more, s.isJoinable = true) (literal : t.isJoinable = true)
      (fields : t = { first with value := t.value })
      (encoding : t.encoding =
        (((first :: more).map (·.encoding)).find? (! ·.isEmpty)).getD [])
      (content : t.content = (first :: more).flatMap (·.content))
      (alone : more = [] → t = first)
      (written : more ≠ [] → t.value.toList = t.encoding ++ '"' :: (t.content ++ ['"'])) :
      JoinsTo (first :: more) t

/-! ## Runs -/

/-- The first encoding of a run that is not empty. It is one of those of the run, if there is
any. -/
private theorem encoding_of_run (run : List Token) :
    let e := ((run.map (·.encoding)).find? (! ·.isEmpty)).getD []
    e = [] ∨ ∃ s ∈ run, e = s.encoding := by
  intro e
  cases hfind : (run.map (·.encoding)).find? (! ·.isEmpty) with
  | none => exact .inl (by simp [e, hfind])
  | some found =>
    obtain ⟨s, hs, rfl⟩ := List.mem_map.1 (List.mem_of_find?_eq_some hfind)
    exact .inr ⟨s, hs, by simp [e, hfind]⟩

/-- A literal alone has its own encoding. -/
private theorem encoding_singleton (t : Token) :
    (([t].map (·.encoding)).find? (! ·.isEmpty)).getD [] = t.encoding := by
  cases h : t.encoding with
  | nil => simp [h]
  | cons c cs => simp [h]

/-- The literals of a run are joined to one. -/
theorem joinsTo_of_together {run : List Token} (hrun : run ≠ [])
    (hall : ∀ s ∈ run, s.isJoinable = true) : ∃ t, joinRun run = [t] ∧ JoinsTo run t := by
  match run with
  | [] => exact absurd rfl hrun
  -- A literal alone is left as it is.
  | [s] =>
    refine ⟨s, rfl, .run hall (hall s (by simp)) rfl ?_ (by simp) (fun _ => rfl) (by simp)⟩
    exact (encoding_singleton s).symm
  -- The joined literal is written anew, so its encoding and content have to be found in it again.
  | s :: u :: more =>
    let e := (((s :: u :: more).map (·.encoding)).find? (! ·.isEmpty)).getD []
    let c := (s :: u :: more).flatMap (·.content)
    let t : Token := { s with value := String.ofList (e ++ '"' :: (c ++ ['"'])) }
    have hvalue : t.value.toList = e ++ '"' :: (c ++ ['"']) := String.toList_ofList
    have hfrom : e = [] ∨ ∃ v ∈ s :: u :: more, e = v.encoding := encoding_of_run _
    have hquote : '"' ∉ e := by
      rcases hfrom with hnil | ⟨v, -, hv⟩
      · simp [hnil]
      · rw [hv]
        exact v.quote_notMem_encoding
    obtain ⟨hencoding, hcontent⟩ := Token.encoding_content_of_value hquote hvalue
    -- The encoding is that of a literal which is not raw, so the joined one is not raw either.
    have hraw : t.isRaw = false := by
      rw [Token.isRaw, hencoding]
      rcases hfrom with hnil | ⟨v, hv, heq⟩
      · simp [hnil]
      · have hjoin := hall v hv
        rw [heq]
        simpa [Token.isJoinable, Token.isRaw] using (Bool.and_eq_true_iff.1 hjoin).2
    have hkind : (decide (s.kind = .string)) = true :=
      (Bool.and_eq_true_iff.1 (hall s List.mem_cons_self)).1
    have hliteral : t.isJoinable = true := by
      rw [Token.isJoinable, hraw]
      simpa using hkind
    refine ⟨t, rfl, .run hall hliteral rfl hencoding hcontent (by simp) fun _ => ?_⟩
    rw [hvalue, hencoding, hcontent]

/-- A token that stands for a group is joined to its neighbours just if the whole group is. -/
theorem JoinsTo.isJoinable_iff {group : List Token} {t : Token} (h : JoinsTo group t) :
    t.isJoinable = true ↔ ∀ s ∈ group, s.isJoinable = true := by
  cases h with
  | other single => simp [single]
  | run literals literal => exact iff_of_true literal literals

/-! ## Groups -/

/-- Neighbours that are joined are all literals, unless there is no neighbour. -/
private theorem all_isJoinable_of_isChain {s u : Token} {more : List Token}
    (h : (s :: u :: more).IsChain fun s t => together s t) :
    ∀ v ∈ s :: u :: more, v.isJoinable = true := by
  induction more generalizing s u with
  | nil =>
    have hboth := Bool.and_eq_true_iff.1 (List.isChain_cons_cons.1 h).1
    simpa using hboth
  | cons w more ih =>
    obtain ⟨hboth, hrest⟩ := List.isChain_cons_cons.1 h
    exact List.forall_mem_cons.2 ⟨(Bool.and_eq_true_iff.1 hboth).1, ih hrest⟩

/-- Each group of neighbours gives one token. -/
private theorem joinsTo_of_mem_splitBy {ts group : List Token} (h : group ∈ ts.splitBy together) :
    ∃ t, joinRun group = [t] ∧ JoinsTo group t := by
  have hne := List.ne_nil_of_mem_splitBy h
  have hchain := List.isChain_of_mem_splitBy h
  match group with
  | [] => exact absurd rfl hne
  -- A token alone may be no literal.
  | [t] =>
    by_cases hjoin : t.isJoinable = true
    · exact joinsTo_of_together hne (by simpa using hjoin)
    · exact ⟨t, rfl, .other (by simpa using hjoin)⟩
  | s :: u :: more => exact joinsTo_of_together hne (all_isJoinable_of_isChain hchain)

/-- Literals side by side are one group. -/
private theorem splitBy_of_all_isJoinable {run : List Token}
    (hall : ∀ s ∈ run, s.isJoinable = true) :
    (run.splitBy together).flatMap joinRun = joinRun run := by
  by_cases hrun : run = []
  · simp [hrun, joinRun]
  · have hchain : run.IsChain fun s t => together s t :=
      List.Pairwise.isChain (List.pairwise_of_forall_mem_list fun s hs t ht => by
        simp [together, hall s hs, hall t ht])
    rw [List.splitBy_of_isChain hrun hchain]
    simp

/-- A token that is not joined is a group of its own. -/
private theorem splitBy_append_single {run : List Token} {t : Token} (ht : t.isJoinable = false)
    (ts : List Token) :
    (run ++ t :: ts).splitBy together = run.splitBy together ++ [t] :: ts.splitBy together := by
  have halone : (t :: ts).splitBy together = [t] :: ts.splitBy together := by
    rw [← List.singleton_append, List.splitBy_append (by simp [together, ht])]
    rfl
  rw [List.splitBy_append_cons ts (by simp [together, ht]), halone]

/-- What the joiner has settled and what it still holds, after the tokens `ts`, are the groups of
what it held and of `ts`. -/
private theorem Joiner.settled_pushAll (out : List Token) (j : Joiner)
    (hheld : ∀ s ∈ j.held, s.isJoinable = true) (ts : List Token) :
    (j.pushAll out ts).1.reverse ++ (j.pushAll out ts).2.flush =
      out.reverse ++ ((j.held.reverse ++ ts).splitBy together).flatMap joinRun := by
  induction ts generalizing out j with
  | nil =>
    have hrun : ∀ s ∈ j.held.reverse, s.isJoinable = true :=
      fun s hs => hheld s (List.mem_reverse.1 hs)
    rw [List.append_nil, splitBy_of_all_isJoinable hrun]
    rfl
  | cons t ts ih =>
    have hstep : j.pushAll out (t :: ts) =
        (j.push t).2.pushAll ((j.push t).1.reverse ++ out) ts := rfl
    rw [hstep]
    by_cases ht : t.isJoinable = true
    · -- The literal joins those that are held.
      have hpush : j.push t = ([], ⟨t :: j.held⟩) := if_pos ht
      rw [hpush, ih _ _ (List.forall_mem_cons.2 ⟨ht, hheld⟩)]
      simp
    · -- The token settles the run before it, and nothing is held behind it.
      have hpush : j.push t = (joinRun j.held.reverse ++ [t], {}) := if_neg ht
      have hrun : ∀ s ∈ j.held.reverse, s.isJoinable = true :=
        fun s hs => hheld s (List.mem_reverse.1 hs)
      rw [hpush, ih _ _ (by simp), splitBy_append_single (by simpa using ht),
        List.flatMap_append, splitBy_of_all_isJoinable hrun]
      simp [joinRun]

/-- Joining is done group by group. -/
theorem joinStrings_eq (ts : List Token) :
    joinStrings ts = (ts.splitBy together).flatMap joinRun := by
  have hsettled := Joiner.settled_pushAll [] {} (by simp) ts
  simpa [joinStrings] using hsettled

/-- Groups that give one token each give as many tokens as there are groups. -/
private theorem forall₂_flatMap_joinRun {groups : List (List Token)}
    (h : ∀ group ∈ groups, ∃ t, joinRun group = [t] ∧ JoinsTo group t) :
    List.Forall₂ JoinsTo groups (groups.flatMap joinRun) := by
  induction groups with
  | nil => exact .nil
  | cons group groups ih =>
    obtain ⟨⟨t, ht, hjoins⟩, hmore⟩ := List.forall_mem_cons.1 h
    rw [List.flatMap_cons, ht]
    exact .cons hjoins (ih hmore)

/-- Each group gives the token that stands for it. -/
private theorem forall₂_joinStrings (ts : List Token) :
    List.Forall₂ JoinsTo (ts.splitBy together) (joinStrings ts) := by
  rw [joinStrings_eq]
  exact forall₂_flatMap_joinRun fun group hgroup => joinsTo_of_mem_splitBy hgroup

/-! ## Nothing is left to be joined -/

/-- Of two groups side by side one is no run, so their tokens are not joined. -/
private theorem isChain_of_forall₂ {groups : List (List Token)} {us : List Token}
    (h : List.Forall₂ JoinsTo groups us)
    (hgroups : groups.IsChain fun a b => ∃ ha hb, together (a.getLast ha) (b.head hb) = false) :
    us.IsChain fun s t => together s t = false := by
  induction h with
  | nil => exact .nil
  | @cons g u gs us hu hmore ih =>
    obtain ⟨hfirst, hrest⟩ := List.isChain_cons.1 hgroups
    refine List.isChain_cons.2 ⟨?_, ih hrest⟩
    intro v hv
    cases hmore with
    | nil => cases hv
    | @cons g' v' gs' us' hv' _ =>
      obtain rfl : v' = v := by simpa using hv
      obtain ⟨hlast, hhead, hapart⟩ := hfirst g' rfl
      rw [Bool.eq_false_iff]
      intro hboth
      obtain ⟨hleft, hright⟩ := Bool.and_eq_true_iff.1 hboth
      -- Both tokens are joinable only if their whole groups are, and then these were one.
      have hl := hu.isJoinable_iff.1 hleft _ (List.getLast_mem hlast)
      have hr := hv'.isJoinable_iff.1 hright _ (List.head_mem hhead)
      simp [together, hl, hr] at hapart

private theorem isChain_joinStrings (ts : List Token) :
    (joinStrings ts).IsChain fun s t => together s t = false :=
  isChain_of_forall₂ (forall₂_joinStrings ts) (List.isChain_getLast_head_splitBy together ts)

/-- Where no two neighbours are joined, nothing changes. -/
private theorem joinStrings_of_isChain {us : List Token}
    (h : us.IsChain fun s t => together s t = false) : joinStrings us = us := by
  -- Every token is a group of its own.
  have hgroups : us.splitBy together = us.map fun t => [t] := by
    rw [List.splitBy_eq_iff]
    refine ⟨by simp [← List.flatMap_def], by simp, by simp, ?_⟩
    rw [List.isChain_map]
    exact h.imp fun s t hapart => ⟨by simp, by simp, hapart⟩
  rw [joinStrings_eq, hgroups, List.flatMap_map]
  simp [joinRun]

/-- Joining merges exactly the longest runs of string literals that are not raw: split into such
runs and single other tokens, the tokens give one token for each group. No two literals are left
side by side, so joining again changes nothing. -/
theorem joinStrings_runs (ts : List Token) :
    List.Forall₂ JoinsTo (ts.splitBy together) (joinStrings ts) ∧
      (joinStrings ts).IsChain (fun s t => ¬(s.isJoinable = true ∧ t.isJoinable = true)) ∧
      joinStrings (joinStrings ts) = joinStrings ts := by
  have hchain := isChain_joinStrings ts
  refine ⟨forall₂_joinStrings ts, ?_, joinStrings_of_isChain hchain⟩
  refine hchain.imp fun s t hapart hboth => ?_
  simp [together, hboth.1, hboth.2] at hapart

/-- A run of three literals, two of them with an encoding, and a raw string behind it. -/
example :
    let literal := fun (value : String) =>
      ({ kind := .string, value, file := "t.c", line := 1, col := 0 } : Token)
    let texts := ["\"a\"", "u8\"\\\"b\"", "L\"c\"", "R\"(d)\"", "\"e\""]
    (joinStrings (texts.map literal)).map (·.value) =
      ["u8\"a\\\"bc\"", "R\"(d)\"", "\"e\""] := by
  decide +kernel

end Preproc
