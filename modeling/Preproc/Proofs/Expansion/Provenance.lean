import Mathlib.Order.Fin.Basic
import Preproc.Directive.Grammar
import Preproc.Proofs.Expansion.Painting
import Preproc.Proofs.Lexing.Lexemes

/-!
# Where the tokens of an expansion come from

Every token that comes out of an expansion is a token of the input, or was produced in the place of
one: by the outermost invocation around it, whose name it remembers. `Traced table ts out` says so
of the whole output, along the input: the tokens of `ts` are kept, or give way to tokens that come
from them, one after the other.

On the way, the streams above the input hold tokens that all come from one name of the input. It
does not matter how they got there, by arguments, by nested expansions, by pasting or by
stringizing: what an invocation is replaced by is located anew as a whole.

## Key results

- `Stack.next?_cases`: a token is read from the streams above the input, or it is the next of the
  input as it is
- `traced_expandFrom`: what is left of an expansion is traced to what is left of its input
- `expand_provenance`: the tokens of the output lie in order over those of the input
-/

namespace Preproc

/-- The token `u` was produced in the place of the name `site`, which is that of a macro. -/
structure Token.ComesFrom (table : MacroTable) (site u : Token) : Prop where
  isName : site.isName = true
  isDefined : table.isDefined site.value = true
  bol : u.bol = false
  file : u.file = site.file
  line : u.line = site.line
  col : u.col = site.col
  expandedFrom : u.expandedFrom = some site.value

/-! ## Reading -/

/-- No token of a text is the result of an expansion. -/
private theorem expandedFrom_of_mem_lexText {file : String} {text : List Char} {t : Token}
    (h : t ∈ (lexText file text).value.all.value) : t.expandedFrom = none := by
  obtain ⟨u, hu, rfl⟩ := List.mem_map.1 h
  obtain hnone | ⟨c, x, -, htaken⟩ := Cursor.exists_take_of_mem_tokens _ [] hu
  · cases hnone
  · rw [htaken]
    rfl

namespace Stack

/-- The tokens that are still to be read from the streams. -/
def unread (s : Stack) : List Token :=
  s.flatMap Frame.rest

/-- Reading leaves a token as it is, or paints it. -/
theorem paint_eq_or (s : Stack) (t : Token) : s.paint t = t ∨ s.paint t = t.paint := by
  unfold paint
  split
  · exact .inr rfl
  · exact .inl rfl

/-- The next token is read from the streams above the input `base`, or, if these are used up, it is
the next token of the input as it is. -/
theorem next?_cases {upper s' : Stack} {base : Frame} {t : Token}
    (h : (upper ++ [base]).next? = some (t, s')) :
    (∃ upper' u, s' = upper' ++ [base] ∧ upper'.unread ⊆ upper.unread ∧ u ∈ upper.unread ∧
      (t = u ∨ t = u.paint)) ∨
    ∃ rest, base.rest = t :: rest ∧
      s' = [{ base with consumed := base.consumed + 1, rest := rest }] := by
  induction upper with
  | nil =>
    rw [List.nil_append] at h
    unfold next? at h
    split at h
    · rename_i u rest hrest
      simp only [Option.some.injEq, Prod.mk.injEq] at h
      obtain ⟨rfl, rfl⟩ := h
      -- No stream is below the input, so nothing is painted there.
      have hpaint : paint [base] u = u := by simp [paint, painted]
      rw [hpaint]
      exact .inr ⟨rest, hrest, rfl⟩
    · simp [next?] at h
  | cons f fs ih =>
    rw [List.cons_append] at h
    unfold next? at h
    split at h
    · rename_i u rest hrest
      simp only [Option.some.injEq, Prod.mk.injEq] at h
      obtain ⟨rfl, rfl⟩ := h
      refine .inl ⟨{ f with consumed := f.consumed + 1, rest := rest } :: fs, u, rfl, ?_, ?_,
        paint_eq_or _ u⟩
      · intro v hv
        simp only [unread, List.flatMap_cons, List.mem_append, hrest, List.mem_cons] at hv ⊢
        exact hv.imp_left .inr
      · simp [unread, hrest]
    · rename_i hrest
      have hunread : unread (f :: fs) = unread fs := by simp [unread, hrest]
      rw [hunread]
      exact ih h

/-- Reading leaves the input at the bottom, and takes tokens away from its front and from the
streams above it. -/
private theorem Advances.of_base {upper s' : Stack} {base : Frame}
    (h : Advances (upper ++ [base]) s') :
    ∃ (upper' : Stack) (base' : Frame), s' = upper' ++ [base'] ∧
      upper'.unread ⊆ upper.unread ∧ base'.rest <:+ base.rest := by
  generalize hs : upper ++ [base] = s at h
  induction h generalizing upper base with
  | refl => exact ⟨upper, base, hs.symm, List.Subset.refl _, List.suffix_refl _⟩
  | drop used more _ ih =>
    cases upper with
    | nil =>
      -- The last stream is never dropped.
      simp only [List.nil_append, List.cons.injEq] at hs
      exact absurd hs.2.symm more
    | cons f fs =>
      simp only [List.cons_append, List.cons.injEq] at hs
      obtain ⟨rfl, hs⟩ := hs
      obtain ⟨upper', base', rfl, hsub, hsuffix⟩ := ih hs
      refine ⟨upper', base', rfl, List.Subset.trans hsub ?_, hsuffix⟩
      exact List.subset_append_right _ _
  | @read f fs _ t ts next _ ih =>
    cases upper with
    | nil =>
      simp only [List.nil_append, List.cons.injEq] at hs
      obtain ⟨rfl, rfl⟩ := hs
      obtain ⟨upper', base', rfl, hsub, hsuffix⟩ := @ih [] _ rfl
      refine ⟨upper', base', rfl, hsub, hsuffix.trans ?_⟩
      rw [next]
      exact List.suffix_cons _ _
    | cons g gs =>
      simp only [List.cons_append, List.cons.injEq] at hs
      obtain ⟨rfl, rfl⟩ := hs
      obtain ⟨upper', base', rfl, hsub, hsuffix⟩ := @ih (_ :: gs) base rfl
      refine ⟨upper', base', rfl, List.Subset.trans hsub ?_, hsuffix⟩
      intro u hu
      simp only [unread, List.flatMap_cons, List.mem_append, next, List.mem_cons] at hu ⊢
      exact hu.imp_left .inr

end Stack

namespace Expander

/-- A call that is no invocation emits the name itself. -/
private theorem emitted_of_call {x y : Expander} {m : Macro} {site t : Token}
    (h : x.call m site = .emit t y) : t = site := by
  unfold call at h
  -- Without a parenthesis, or if the arguments do not fit, the name is emitted itself.
  split at h
  · simp only at h
    split at h
    · simp at h
    · simp only [Move.emit.injEq] at h
      exact h.1.symm
  · simp only [Move.emit.injEq] at h
    exact h.1.symm

/-- A token that is emitted outside of a condition is the one that was read. -/
theorem next?_of_move_emit {x y : Expander} {env : Expansion} {t : Token}
    (hcond : env.condition = false) (h : x.move env = .emit t y) :
    x.stack.next? = some (t, y.stack) := by
  unfold move at h
  split at h
  · simp at h
  · rename_i u s hnext
    simp only [hcond, Bool.false_and, Bool.false_eq_true, if_false] at h
    split at h
    · simp only [Move.emit.injEq] at h
      obtain ⟨rfl, rfl⟩ := h
      exact hnext
    · split at h
      · simp only [Move.emit.injEq] at h
        obtain ⟨rfl, rfl⟩ := h
        exact hnext
      · split at h
        · -- No argument list was found, so only the name was read.
          obtain ⟨-, hstack⟩ := call_emit h
          rw [hnext, hstack, emitted_of_call h]
        · simp at h

/-- The name of an invocation is what was read first, and then its argument list was. -/
private theorem next?_of_move_invoke {x y : Expander} {env : Expansion} {m : Macro} {site : Token}
    {args : List (List Token)} (h : x.move env = .invoke m site args y) :
    ∃ s, x.stack.next? = some (site, s) ∧ s.Advances y.stack := by
  obtain ⟨s, hnext, ⟨-, hstack⟩ | hcollect⟩ := read_of_move_invoke h
  · exact ⟨s, hnext, hstack ▸ .refl s⟩
  · exact ⟨s, hnext, Stack.advances_of_collect hcollect⟩

/-- What an invocation is replaced by has one place and one origin. -/
private theorem of_mem_relocated {m : Macro} {site u : Token} {ts : List Token}
    (h : u ∈ relocated m site ts) :
    u.bol = false ∧ u.file = site.file ∧ u.line = site.line ∧ u.col = site.col ∧
      u.expandedFrom = some (site.expandedFrom.getD m.name) := by
  unfold relocated at h
  cases ts with
  | nil => simp [withWhiteOf] at h
  | cons t ts =>
    simp only [List.map_cons, withWhiteOf, List.mem_cons, List.mem_map] at h
    rcases h with rfl | ⟨v, -, rfl⟩
    · exact ⟨rfl, rfl, rfl, rfl, rfl⟩
    · exact ⟨rfl, rfl, rfl, rfl, rfl⟩

end Expander

/-! ## Tracing the output to the input -/

namespace Expansion

/-- The tokens `out` lie in order over the tokens `ts`: each of these is kept, or tokens that come
from it stand in its place. None do if it was read as part of an invocation, or gives no tokens. -/
inductive Traced (table : MacroTable) : List Token → List Token → Prop
  | nil : Traced table [] []
  | kept {t : Token} {ts out : List Token} (rest : Traced table ts out) :
      Traced table (t :: ts) (t :: out)
  | replaced {t : Token} {ts us out : List Token} (from_ : ∀ u ∈ us, Token.ComesFrom table t u)
      (rest : Traced table ts out) : Traced table (t :: ts) (us ++ out)

variable {table : MacroTable}

/-- Tokens of the input that give nothing may stand in front. -/
theorem Traced.of_suffix {ts ts' out : List Token} (h : Traced table ts' out) (hs : ts' <:+ ts) :
    Traced table ts out := by
  obtain ⟨pre, rfl⟩ := hs
  induction pre with
  | nil => exact h
  | cons t pre ih => exact @Traced.replaced table t _ [] out (by simp) ih

/-- No output is traced to any input. -/
theorem traced_nil (ts : List Token) : Traced table ts [] :=
  Traced.nil.of_suffix List.nil_suffix

/-- The tokens come from `site`; without a site there are none. -/
def AllFrom (table : MacroTable) (site : Option Token) (us : List Token) : Prop :=
  ∀ u ∈ us, ∃ t, site = some t ∧ Token.ComesFrom table t u

/-- Without a site there are no tokens. -/
theorem AllFrom.eq_nil {us : List Token} (h : AllFrom table none us) : us = [] := by
  cases us with
  | nil => rfl
  | cons u us =>
    obtain ⟨t, ht, -⟩ := h u List.mem_cons_self
    cases ht

/-- What comes from a site still does when some of it is gone. -/
theorem AllFrom.subset {site : Option Token} {us vs : List Token} (h : AllFrom table site vs)
    (hs : us ⊆ vs) : AllFrom table site us :=
  fun u hu => h u (hs hu)

/-- Two parts that come from a site do so together. -/
theorem AllFrom.append {site : Option Token} {us vs : List Token} (hu : AllFrom table site us)
    (hv : AllFrom table site vs) : AllFrom table site (us ++ vs) := by
  intro u h
  cases List.mem_append.1 h with
  | inl h => exact hu u h
  | inr h => exact hv u h

/-- What replaces a token that comes from `site` comes from `site`, too. -/
private theorem comesFrom_relocated {site t u : Token} {m : Macro} {ts : List Token}
    (ht : Token.ComesFrom table site t) (hu : u ∈ Expander.relocated m t ts) :
    Token.ComesFrom table site u := by
  obtain ⟨hbol, hfile, hline, hcol, hfrom⟩ := Expander.of_mem_relocated hu
  rw [ht.expandedFrom] at hfrom
  exact ⟨ht.isName, ht.isDefined, hbol, hfile.trans ht.file, hline.trans ht.line,
    hcol.trans ht.col, hfrom⟩

/-- What replaces a token that no expansion has produced comes from that token. -/
private theorem comesFrom_of_invokes {x y : Expander} {env : Expansion} {m : Macro} {t u : Token}
    {args : List (List Token)} {ts : List Token} (h : x.Invokes env m t args y)
    (ht : t.expandedFrom = none) (hu : u ∈ Expander.relocated m t ts) :
    Token.ComesFrom env.macros t u := by
  obtain ⟨hbol, hfile, hline, hcol, hfrom⟩ := Expander.of_mem_relocated hu
  rw [ht, Option.getD_none, MacroTable.name_of_find? h.found] at hfrom
  exact ⟨h.isName, MacroTable.isDefined_of_find? h.found, hbol, hfile, hline, hcol, hfrom⟩

/-- A token that is read from streams whose tokens come from `site` does so, too. -/
theorem AllFrom.read {site : Option Token} {vs : List Token} {t u : Token}
    (h : AllFrom table site vs) (hu : u ∈ vs) (htu : t = u ∨ t = u.paint) :
    ∃ s, site = some s ∧ Token.ComesFrom table s t := by
  obtain ⟨s, hs, hfrom⟩ := h u hu
  rcases htu with rfl | rfl
  · exact ⟨s, hs, hfrom⟩
  · -- Paint changes neither place nor origin.
    exact ⟨s, hs, hfrom.isName, hfrom.isDefined, hfrom.bol, hfrom.file, hfrom.line, hfrom.col,
      hfrom.expandedFrom⟩

/-- What is left of an expansion gives tokens that come from `site`, as all do that are left on the
streams above the input, and then tokens that are traced to what is left of the input. -/
theorem traced_expandFrom (p : Point) {site : Option Token} {upper : Stack} {base : Frame}
    {out res : List Token} {y : Expander} (hcond : p.env.condition = false)
    (hstack : p.state.stack = upper ++ [base])
    (hupper : AllFrom p.env.macros site upper.unread)
    (hbase : ∀ t ∈ base.rest, t.expandedFrom = none)
    (hok : expandFrom p.env p.state out = .ok res y) :
    ∃ us later, res = out.reverse ++ (us ++ later) ∧ AllFrom p.env.macros site us ∧
      Traced p.env.macros base.rest later := by
  induction p using run_induction generalizing site upper base out with
  | step p ih =>
    cases hmove : p.state.move p.env with
    | finish z =>
      rw [expandFrom_of_move_finish hmove] at hok
      cases hok
      exact ⟨[], [], by simp, by simp [AllFrom], traced_nil _⟩
    | emit t z =>
      rw [expandFrom_of_move_emit hmove] at hok
      have hnext := Expander.next?_of_move_emit hcond hmove
      rw [hstack] at hnext
      rcases Stack.next?_cases hnext with ⟨upper', u, hz, hsub, hu, htu⟩ | ⟨rest, hrest, hz⟩
      · -- The token is read from above the input, so it comes from the site.
        obtain ⟨us, later, rfl, hus, hlater⟩ :=
          ih _ (.emit hmove) hcond hz (hupper.subset hsub) hbase hok
        have ht : AllFrom p.env.macros site [t] :=
          fun v hv => List.mem_singleton.1 hv ▸ hupper.read hu htu
        exact ⟨t :: us, later, by simp, ht.append hus, hlater⟩
      · -- The streams above the input are used up, so what follows comes from no site.
        rw [hrest] at hbase ⊢
        obtain ⟨us, later, rfl, hus, hlater⟩ := @ih _ (.emit hmove) none [] _ _ hcond hz
          (by simp [AllFrom, Stack.unread]) (List.forall_mem_cons.1 hbase).2 hok
        rw [hus.eq_nil]
        exact ⟨[], t :: later, by simp, by simp [AllFrom], .kept hlater⟩
    | invoke m t args z =>
      rw [expandFrom_of_move_invoke hmove] at hok
      cases hreplace : z.replace p.env m t args with
      | error e w => simp [hreplace] at hok
      | ok _ w =>
        simp only [hreplace] at hok
        obtain ⟨_, _, ts, hreplaced⟩ := Expander.replaced_of_replace hreplace
        obtain ⟨s, hnext, hadvances⟩ := Expander.next?_of_move_invoke hmove
        rw [hstack] at hnext
        -- Wherever the name stands: if what replaces it comes from `origin`, and so does all that
        -- is left above the input, this goes on until the input is read again.
        have hgoesOn : ∀ (origin : Token) (upper₁ : Stack) (base₁ : Frame),
            z.stack = upper₁ ++ [base₁] → (∀ t ∈ base₁.rest, t.expandedFrom = none) →
            AllFrom p.env.macros (some origin) (Expander.relocated m t ts) →
            AllFrom p.env.macros (some origin) upper₁.unread →
            ∃ us later, res = out.reverse ++ (us ++ later) ∧
              AllFrom p.env.macros (some origin) us ∧ Traced p.env.macros base₁.rest later := by
          intro origin upper₁ base₁ hz hbase₁ hnew hupper₁
          have hw : w.stack =
              (⟨some m.name, 0, Expander.relocated m t ts⟩ :: upper₁) ++ [base₁] := by
            rw [hreplaced.stack, hz, List.cons_append]
          exact ih _ (.replace hmove hreplace) hcond hw (hnew.append hupper₁) hbase₁ hok
        rcases Stack.next?_cases hnext with ⟨upper', u, rfl, hsub, hu, htu⟩ | ⟨rest, hrest, rfl⟩
        · -- The name stands above the input: what replaces it comes from where the name does.
          obtain ⟨upper₁, base₁, hz, hsub₁, hsuffix⟩ := hadvances.of_base
          obtain ⟨origin, rfl, hfrom⟩ := hupper.read hu htu
          obtain ⟨us, later, rfl, hus, hlater⟩ :=
            hgoesOn origin upper₁ base₁ hz (fun v hv => hbase v (hsuffix.subset hv))
              (fun v hv => ⟨origin, rfl, comesFrom_relocated hfrom hv⟩)
              (hupper.subset (List.Subset.trans hsub₁ hsub))
          exact ⟨us, later, rfl, hus, hlater.of_suffix hsuffix⟩
        · -- The name stands in the input itself: what replaces it comes from there.
          rw [hrest] at hbase ⊢
          obtain ⟨ht, hbase⟩ := List.forall_mem_cons.1 hbase
          obtain ⟨upper₁, base₁, hz, hsub₁, hsuffix⟩ := @Stack.Advances.of_base [] _ _ hadvances
          have hinvokes := Expander.invokes_of_move hmove
          obtain ⟨us, later, rfl, hus, hlater⟩ :=
            hgoesOn t upper₁ base₁ hz (fun v hv => hbase v (hsuffix.subset hv))
              (fun v hv => ⟨t, rfl, comesFrom_of_invokes hinvokes ht hv⟩)
              (fun v hv => absurd (hsub₁ hv) (by simp [Stack.unread]))
          refine ⟨[], us ++ later, rfl, by simp [AllFrom], .replaced ?_ (hlater.of_suffix hsuffix)⟩
          intro u hu
          obtain ⟨_, heq, hfrom⟩ := hus u hu
          cases heq
          exact hfrom

/-! ## Positions -/

/-- The tokens `out` have positions in `ts`, in order. One that is kept is alone in its position,
and any other comes from the name there. -/
def Placed (table : MacroTable) (ts out : List Token) (s : Fin out.length → Fin ts.length) : Prop :=
  Monotone s ∧ ∀ k, (out.get k = ts.get (s k) ∧ ∀ j, s j = s k → j = k) ∨
    Token.ComesFrom table (ts.get (s k)) (out.get k)

/-- A token that is kept stands first, and the others move by one. -/
private theorem placed_kept {t : Token} {ts out : List Token} {s : Fin out.length → Fin ts.length}
    (h : Placed table ts out s) :
    Placed table (t :: ts) (t :: out) (Fin.cases ⟨0, Nat.succ_pos _⟩ fun k => (s k).succ) := by
  obtain ⟨hmono, hs⟩ := h
  constructor
  · -- The new token is first on both sides, so the order is kept.
    intro i j hij
    cases i using Fin.cases with
    | zero => exact Nat.zero_le _
    | succ i =>
      cases j using Fin.cases with
      | zero => exact absurd hij (Fin.not_le.2 (Fin.succ_pos i))
      | succ j => exact Fin.succ_le_succ_iff.2 (hmono (Fin.succ_le_succ_iff.1 hij))
  · -- Nothing else comes from the new token.
    intro k
    cases k using Fin.cases with
    | zero =>
      refine .inl ⟨rfl, fun j hj => ?_⟩
      cases j using Fin.cases with
      | zero => rfl
      | succ j => exact absurd hj (Fin.succ_ne_zero _)
    | succ k =>
      refine (hs k).imp (fun ⟨hkept, halone⟩ => ⟨hkept, fun j hj => ?_⟩) id
      cases j using Fin.cases with
      | zero => exact absurd hj.symm (Fin.succ_ne_zero _)
      | succ j => rw [halone j (Fin.succ_injective _ hj)]

/-- Behind the tokens of `us` the others are counted from zero. -/
private theorem sub_lt {us out : List Token} (k : Fin (us ++ out).length)
    (hk : ¬k.val < us.length) : k.val - us.length < out.length := by
  have hlt : k.val < us.length + out.length := Nat.lt_of_lt_of_eq k.isLt List.length_append
  omega

/-- The position of a token after those of `us`, which stand at the first position. -/
def shifted (us : List Token) {ts out : List Token} (s : Fin out.length → Fin ts.length)
    (k : Fin (us ++ out).length) : Fin (ts.length + 1) :=
  if hk : k.val < us.length then 0 else (s ⟨k.val - us.length, sub_lt k hk⟩).succ

/-- Tokens that come from the first one all stand there, and the others move by one. -/
private theorem placed_replaced {t : Token} {ts us out : List Token}
    {s : Fin out.length → Fin ts.length} (hus : ∀ u ∈ us, Token.ComesFrom table t u)
    (h : Placed table ts out s) :
    Placed table (t :: ts) (us ++ out) (shifted us s) := by
  obtain ⟨hmono, hs⟩ := h
  constructor
  · -- All of `us` comes from the first token, and the rest from behind it.
    intro i j hij
    have hle : i.val ≤ j.val := hij
    unfold shifted
    split
    · exact Fin.zero_le _
    · rw [dif_neg (by omega)]
      exact Fin.succ_le_succ_iff.2 (hmono (Nat.sub_le_sub_right hle _))
  · intro k
    by_cases hk : k.val < us.length
    · have hzero : shifted us s k = 0 := dif_pos hk
      have hget : (us ++ out).get k = us[k.val] := List.getElem_append_left hk
      rw [hzero, hget]
      exact .inr (hus _ (List.getElem_mem hk))
    · have hsucc : shifted us s k = (s ⟨k.val - us.length, sub_lt k hk⟩).succ := dif_neg hk
      have hget : (us ++ out).get k = out.get ⟨k.val - us.length, sub_lt k hk⟩ :=
        List.getElem_append_right (Nat.le_of_not_lt hk)
      rw [hsucc, hget]
      refine (hs _).imp (fun ⟨hkept, halone⟩ => ⟨hkept, fun j hj => ?_⟩) id
      unfold shifted at hj
      split at hj
      · exact absurd hj.symm (Fin.succ_ne_zero _)
      · -- Two that come from the same token of the rest are at the same place in it.
        have hsame := congrArg Fin.val (halone _ (Fin.succ_injective _ hj))
        apply Fin.ext
        simp only at hsame
        omega

/-- Output that is traced to the input has positions in it. -/
theorem Traced.positions {ts out : List Token} (h : Traced table ts out) :
    ∃ s, Placed table ts out s := by
  induction h with
  | nil => exact ⟨id, monotone_id, fun k => k.elim0⟩
  | kept _ ih =>
    obtain ⟨s, hs⟩ := ih
    exact ⟨_, placed_kept hs⟩
  | replaced hfrom _ ih =>
    obtain ⟨s, hs⟩ := ih
    exact ⟨_, placed_replaced hfrom hs⟩

/-- The tokens that come out of an expansion have positions in the input, in order, if the input is
not itself the result of an expansion. A token is the one at its position, and alone there; or it
was produced in the place of that one, which is then the name of a macro, and remembers it. -/
theorem expand_provenance {env : Expansion} (hcond : env.condition = false) (x : Expander)
    {ts : List Token} (hts : ∀ t ∈ ts, t.expandedFrom = none) {out : List Token} {y : Expander}
    (h : x.expand env ts = .ok out y) :
    ∃ s : Fin out.length → Fin ts.length, Monotone s ∧
      ∀ k, (out.get k = ts.get (s k) ∧ ∀ j, s j = s k → j = k) ∨
        Token.ComesFrom env.macros (ts.get (s k)) (out.get k) := by
  -- At the start there is only the input, and nothing comes from a site.
  obtain ⟨us, later, rfl, hus, hlater⟩ :=
    @traced_expandFrom (Point.start env x ts) none [] ⟨none, 0, ts⟩ _ _ _ hcond rfl
      (by simp [AllFrom, Stack.unread]) hts h
  rw [hus.eq_nil]
  exact hlater.positions

namespace Rescanned

/-- The macro `f(x)` stands for `x #x`, and `g` for `f`. -/
def env : Expansion :=
  { macros :=
      { macros := ["f(x) x #x", "g f"].filterMap fun d => (Macro.ofText d).value.toOption } }

/-- The tokens of `g(g) b`: the arguments of `f` lie behind the replacement of `g`. -/
def input : List Token :=
  (lexText "t.c" "g(g) b".toList).value.all.value

/-- The tokens that these expand to. -/
def output? : Option (List Token) :=
  match Expander.expand {} env input with
  | .ok out _ => some out
  | .error _ _ => none

end Rescanned

open Rescanned in
/-- The inner `g` is an argument of `f`, and what it gives is located where the outer `g` stands. -/
theorem expand_provenance_rescanned :
    (∀ t ∈ input, t.expandedFrom = none) ∧
    ∃ out y, Expander.expand {} env input = .ok out y ∧
      out.map (fun t => (t.value, t.col, t.expandedFrom)) =
        [("f", 0, some "g"), ("\"g\"", 0, some "g"), ("b", 5, none)] ∧
      ∃ s : Fin out.length → Fin input.length, Monotone s ∧
        ∀ k, (out.get k = input.get (s k) ∧ ∀ j, s j = s k → j = k) ∨
          Token.ComesFrom env.macros (input.get (s k)) (out.get k) := by
  -- Tokens that were read from a text come from no macro.
  have hinput : ∀ t ∈ input, t.expandedFrom = none :=
    fun t ht => expandedFrom_of_mem_lexText ht
  have hout : output?.map (·.map fun t => (t.value, t.col, t.expandedFrom)) =
      some [("f", 0, some "g"), ("\"g\"", 0, some "g"), ("b", 5, none)] := by
    decide +kernel
  obtain ⟨out, hsome, hlook⟩ := Option.map_eq_some_iff.1 hout
  unfold output? at hsome
  split at hsome
  · rename_i out' y hok
    cases hsome
    exact ⟨hinput, out, y, hok, hlook, expand_provenance rfl {} hinput hok⟩
  · cases hsome

end Expansion

end Preproc
