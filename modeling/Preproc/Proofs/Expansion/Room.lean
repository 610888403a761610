import Preproc.Proofs.Expansion.Run

/-!
# Room for an expansion

The two limits of an expansion only cut it off. With more room, for tokens or for live streams, an
expansion that succeeds makes the same steps and gives the same result; and how many streams wait
counts only against the limit on live streams. So nothing of an expansion depends on the stacks that
wait for it.

## Key results

- `MoreRoom.expandFrom_ok`: with more room the result is the same
- `reaches_of_roomier`: with more room the same points are reached
-/

namespace Preproc

namespace Expansion

/-! ## Room -/

/-- The second expansion works with the same macros as the first and has at least as much room: for
tokens, and for live streams beside those that wait. Arguments may be nested as deeply. -/
structure MoreRoom (env env' : Expansion) : Prop where
  macros : env'.macros = env.macros
  condition : env'.condition = env.condition
  nesting : env'.nesting = env.nesting
  tokens : env.maxTokens ≤ env'.maxTokens
  streams : env.maxDepth - env.waiting ≤ env'.maxDepth - env'.waiting

namespace MoreRoom

/-- An argument has more room if its invocation has. -/
theorem forArgument {env env' : Expansion} (h : MoreRoom env env') (depth produced : Nat) :
    MoreRoom (env.forArgument depth produced) (env'.forArgument depth produced) := by
  have htokens := h.tokens
  have hstreams := h.streams
  refine ⟨h.macros, h.condition, ?_, ?_, ?_⟩
  · simp only [Expansion.forArgument, h.nesting]
  · simp only [Expansion.forArgument]
    omega
  · simp only [Expansion.forArgument]
    omega

/-- What the next token asks for does not depend on the room. -/
theorem move_eq {env env' : Expansion} (h : MoreRoom env env') (x : Expander) :
    x.move env' = x.move env := by
  unfold Expander.move Expander.defined
  simp only [h.macros, h.condition]

/-- What fits on the stack fits with more room. -/
private theorem push_ok {env env' : Expansion} (h : MoreRoom env env') {x y : Expander}
    {ts : List Token} {name : String} (hpush : x.push env ts name = .ok () y) :
    x.push env' ts name = .ok () y := by
  obtain ⟨rfl, hdepth, hlength⟩ := Expander.of_push hpush
  have hstreams := h.streams
  have htokens := h.tokens
  unfold Expander.push
  rw [if_neg (by omega)]
  simp only
  rw [if_neg (by omega)]

/-- Arguments are expanded alike if each of the expansions opened for them is. -/
theorem preExpand_eq {env env' : Expansion} (h : MoreRoom env env') {depth start : Nat}
    {plain : List Bool} {args : List (List Token)} {before given : List Argument}
    {produced count : Nat} {notes : Array Note}
    (hargs : ∀ inner x inner' ts y, Opens env depth start inner x plain args produced count notes →
      MoreRoom inner inner' → expandFrom inner x [] = .ok ts y → expandFrom inner' x [] = .ok ts y)
    (hok : (preExpand env depth plain args before start produced count notes).args = .ok given) :
    preExpand env' depth plain args before start produced count notes =
      preExpand env depth plain args before start produced count notes := by
  induction args generalizing plain before produced count notes with
  | nil => simp only [preExpand]
  | cons a rest ih =>
    rcases of_preExpand_cons hok with ⟨hplain, hroom, ts, y, hx, heq⟩ | ⟨hplain, heq⟩
    · -- The first argument gives the same, so the others start from the same state.
      have hroom' : env'.nesting ≠ 0 := by rwa [h.nesting]
      have hx' := hargs _ _ _ ts y (.here hplain hroom rfl rfl) (h.forArgument _ _) hx
      rw [heq] at hok ⊢
      rw [preExpand_of_ok hplain hroom' hx']
      refine ih ?_ hok
      intro inner x inner' ts' y' hopens
      exact hargs inner x inner' ts' y' (.expanded hplain hx hopens)
    · rw [heq] at hok ⊢
      rw [preExpand_of_raw hplain]
      refine ih ?_ hok
      intro inner x inner' ts y hopens
      exact hargs inner x inner' ts y (.raw hplain hopens)

/-- What is replaced is replaced by the same, if its arguments are expanded alike. -/
private theorem replace_ok {env env' : Expansion} (h : MoreRoom env env') {y z : Expander}
    {m : Macro} {site : Token} {args : List (List Token)}
    (hargs : ∀ inner x inner' ts w, Opens env y.stack.length y.produced inner x m.plainParams args 0
      y.count y.notes → MoreRoom inner inner' → expandFrom inner x [] = .ok ts w →
      expandFrom inner' x [] = .ok ts w)
    (hreplace : y.replace env m site args = .ok () z) : y.replace env' m site args = .ok () z := by
  unfold Expander.replace at hreplace ⊢
  -- The arguments come first, and what they give is put into the body.
  have hexpand : ∀ given y₁, y.expandArguments env m args = .ok given y₁ →
      y.expandArguments env' m args = .ok given y₁ := by
    intro given y₁ hok
    unfold Expander.expandArguments at hok ⊢
    simp only at hok ⊢
    split at hok
    · simp at hok
    · rename_i given' hpre
      rw [h.preExpand_eq hargs hpre, hpre]
      exact hok
  split at hreplace
  · simp at hreplace
  · rename_i given y₁ hgiven
    rw [hexpand given y₁ hgiven]
    simp only at hreplace ⊢
    split at hreplace
    · simp at hreplace
    · exact h.push_ok hreplace

/-- What an expansion gives depends only on the room that it has. -/
theorem expandFrom_ok {env : Expansion} {x : Expander} (env' : Expansion) {out ts : List Token}
    {y : Expander} (h : MoreRoom env env') (hok : expandFrom env x out = .ok ts y) :
    expandFrom env' x out = .ok ts y := by
  -- The induction is over the steps of a point; which stacks wait plays no part.
  suffices ∀ p : Point, ∀ env' out ts y, MoreRoom p.env env' →
      expandFrom p.env p.state out = .ok ts y → expandFrom env' p.state out = .ok ts y from
    this ⟨env, x, []⟩ env' out ts y h hok
  intro p
  induction p using run_induction with
  | step p ih =>
    intro env' out ts y h hok
    cases hmove : p.state.move p.env with
    | finish z =>
      have hmove' := (h.move_eq p.state).trans hmove
      rw [expandFrom_of_move_finish hmove] at hok
      rw [expandFrom_of_move_finish hmove', hok]
    | emit t z =>
      have hmove' := (h.move_eq p.state).trans hmove
      rw [expandFrom_of_move_emit hmove] at hok
      rw [expandFrom_of_move_emit hmove']
      exact ih _ (.emit hmove) env' _ ts y h hok
    | invoke m site args z =>
      have hmove' := (h.move_eq p.state).trans hmove
      rw [expandFrom_of_move_invoke hmove] at hok
      rw [expandFrom_of_move_invoke hmove']
      cases hreplace : z.replace p.env m site args with
      | error e w => simp [hreplace] at hok
      | ok u w =>
        simp only [hreplace] at hok
        -- The arguments are expanded from points one step away, whatever room they have.
        have hreplace' := h.replace_ok (fun inner x inner' ts w hopens hroom hexpand =>
          ih _ (.enter (.mk hmove hopens)) inner' [] ts w hroom hexpand) hreplace
        simp only [hreplace']
        exact ih _ (.replace hmove hreplace) env' out ts y h hok

/-- What is replaced is replaced by the same with more room. -/
theorem replace_eq {env env' : Expansion} (h : MoreRoom env env') {y z : Expander} {m : Macro}
    {site : Token} {args : List (List Token)} (hreplace : y.replace env m site args = .ok () z) :
    y.replace env' m site args = .ok () z :=
  h.replace_ok (fun _ _ inner' _ _ _ hroom hok => hroom.expandFrom_ok inner' hok) hreplace

/-- The same arguments are opened with more room. -/
theorem opens {env env' inner : Expansion} (h : MoreRoom env env') {depth start : Nat}
    {x : Expander} {plain : List Bool} {args : List (List Token)} {produced count : Nat}
    {notes : Array Note} (hopens : Opens env depth start inner x plain args produced count notes) :
    ∃ inner', MoreRoom inner inner' ∧
      Opens env' depth start inner' x plain args produced count notes := by
  induction hopens with
  | here hplain hroom hinner hx =>
    subst hinner
    rw [← h.nesting] at hroom
    exact ⟨_, h.forArgument _ _, .here hplain hroom rfl hx⟩
  -- The arguments before it are expanded to the same tokens.
  | expanded hplain ha later ih =>
    obtain ⟨inner', hroom, hopens'⟩ := ih
    exact ⟨inner', hroom, .expanded hplain ((h.forArgument _ _).expandFrom_ok _ ha) hopens'⟩
  | raw hplain later ih =>
    obtain ⟨inner', hroom, hopens'⟩ := ih
    exact ⟨inner', hroom, .raw hplain hopens'⟩

end MoreRoom

/-! ## Runs with more room -/

/-- Two points at which expansions have come equally far, the second with at least as much room.
Which stacks wait plays no part. -/
structure Point.Roomier (p p' : Point) : Prop where
  state : p'.state = p.state
  room : MoreRoom p.env p'.env

/-- A step is made with more room too. -/
private theorem step_of_roomier {p p' q : Point} (h : p.Roomier p') (hstep : Step p q) :
    ∃ q', Step p' q' ∧ q.Roomier q' := by
  -- What a state does next does not depend on the room.
  have hmove_eq : p'.state.move p'.env = p.state.move p.env := by
    rw [h.state]
    exact h.room.move_eq p.state
  cases hstep with
  | emit hmove => exact ⟨_, .emit (hmove_eq.trans hmove), ⟨rfl, h.room⟩⟩
  | replace hmove hreplace =>
    exact ⟨_, .replace (hmove_eq.trans hmove) (h.room.replace_eq hreplace), ⟨rfl, h.room⟩⟩
  | enter henter =>
    obtain ⟨hmove, hopens⟩ := henter
    obtain ⟨inner', hroom, hopens'⟩ := h.room.opens hopens
    exact ⟨_, .enter (.mk (hmove_eq.trans hmove) hopens'), ⟨rfl, hroom⟩⟩

/-- With more room the same points are reached. -/
theorem reaches_of_roomier {p p' q : Point} (h : p.Roomier p') (hreach : Reaches p q) :
    ∃ q', Reaches p' q' ∧ q.Roomier q' := by
  induction hreach with
  | refl => exact ⟨p', .refl, h⟩
  | tail _ hstep ih =>
    obtain ⟨q', hreach', hroomier⟩ := ih
    obtain ⟨r', hstep', hroomier'⟩ := step_of_roomier hroomier hstep
    exact ⟨r', hreach'.tail hstep', hroomier'⟩

/-- With more room the same names are replaced. -/
theorem replaces_of_roomier {p p' : Point} (h : p.Roomier p') {name : String}
    (hreplaces : p.Replaces name) : p'.Replaces name := by
  obtain ⟨m, site, args, y, z, hmove, hreplace, hname⟩ := hreplaces
  refine ⟨m, site, args, y, z, ?_, h.room.replace_eq hreplace, hname⟩
  rw [h.state, h.room.move_eq]
  exact hmove

end Expansion

end Preproc
