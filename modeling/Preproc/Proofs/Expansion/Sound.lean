import Preproc.Proofs.Expansion.Notes
import Preproc.Proofs.Expansion.Provenance
import Preproc.Proofs.Expansion.Totality
import Preproc.Proofs.Lexing.Lossless
import Preproc.Proofs.Macro.Pasting

/-!
# What the tokens of an expansion are

A token that is read from a text is a spelling: reading its value again gives the same token. Macro
expansion makes tokens of its own, by pasting, by stringizing and for the predefined macros. All but
the strings among them are spellings again: a pasted token is read from its text, and the others are
numbers. What a string holds is not looked at, so a string need not be a spelling.

## Key results

- `sound_of_mem_lexText`, `sound_paste`: tokens that are read are sound, and so are pasted ones
- `Macro.sound_ofDefinition`: the replacement list of a definition is as sound as its text
- `Signature.sound_substitute`: substituting sound arguments keeps a replacement list sound
- `sound_expand`: expanding sound tokens gives sound tokens
-/

namespace Preproc

/-- A token that is no end token and, unless it is a string or unknown, is a spelling without a line
ending. -/
structure Token.Sound (t : Token) : Prop where
  kind : t.kind ≠ .eof
  spelled : t.kind ≠ .string → t.kind ≠ .unknown →
    Spelled t.kind t.value.toList ∧ '\r' ∉ t.value.toList

/-- All tokens are sound. -/
def AllSound (ts : List Token) : Prop :=
  ∀ t ∈ ts, t.Sound

/-- It does not matter where a token stands. -/
theorem Token.Sound.of_face {t u : Token} (h : t.Sound) (hface : u.face = t.face) : u.Sound := by
  obtain ⟨hkind, hvalue⟩ := Prod.mk.inj hface
  constructor
  · rw [hkind]
    exact h.kind
  · rw [hkind, hvalue]
    exact h.spelled

/-- Strings are sound, whatever they hold. -/
theorem Token.sound_of_string {t : Token} (h : t.kind = .string) : t.Sound :=
  ⟨by simp [h], fun hne => absurd h hne⟩

theorem AllSound.subset {ts us : List Token} (h : AllSound ts) (hsub : us ⊆ ts) : AllSound us :=
  fun t ht => h t (hsub ht)

/-- No tokens are sound. -/
theorem allSound_nil : AllSound [] := by
  intro t ht
  cases ht

theorem allSound_cons {t : Token} {ts : List Token} :
    AllSound (t :: ts) ↔ t.Sound ∧ AllSound ts :=
  List.forall_mem_cons

theorem allSound_append {ts us : List Token} : AllSound (ts ++ us) ↔ AllSound ts ∧ AllSound us :=
  List.forall_mem_append

theorem AllSound.reverse {ts : List Token} (h : AllSound ts) : AllSound ts.reverse :=
  fun t ht => h t (List.mem_reverse.1 ht)

/-- White space before the first token does not matter. -/
theorem AllSound.withWhiteOf {ts : List Token} (h : AllSound ts) (t : Token) :
    AllSound (withWhiteOf t ts) := by
  cases ts with
  | nil => exact allSound_nil
  | cons u us =>
    obtain ⟨hu, hus⟩ := allSound_cons.1 h
    exact allSound_cons.2 ⟨hu.of_face rfl, hus⟩

/-! ## Tokens that are read -/

/-- A token that is read is sound. -/
theorem Token.Read.sound {t : Token} (h : t.Read) : t.Sound := by
  obtain ⟨text, hmem⟩ := h
  constructor
  · obtain ⟨rest, -, -, -, hface⟩ := exists_of_mem_lexemes hmem
    have hkind : t.kind = (lexemeAt rest).kind := (Prod.mk.inj hface).1
    rw [hkind]
    exact kind_lexemeAt rest
  · intro hstring hknown
    refine ⟨spelled_of_mem_lexemes hmem hknown fun hk => absurd hk hstring, ?_⟩
    exact fun hcr => cr_notMem_logicalText text (subset_of_mem_lexemes hmem hcr)

/-- The tokens of a text are read from it. -/
theorem Token.read_of_mem_lexText {file : String} {text : List Char} {t : Token}
    (h : t ∈ (lexText file text).value.all.value) : t.Read := by
  refine ⟨text, ?_⟩
  rw [← face_lexText file text]
  obtain ⟨u, hu, rfl⟩ := List.mem_map.1 h
  exact List.mem_map_of_mem hu

/-- The tokens of a text are sound. -/
theorem sound_of_mem_lexText {file : String} {text : List Char} {t : Noted Token}
    (h : t ∈ (lexText file text).value.tokens) : t.value.Sound :=
  (Token.read_of_mem_lexText (List.mem_map_of_mem h)).sound

/-- All tokens of a text are sound. -/
theorem allSound_lexText (file : String) (text : List Char) :
    AllSound (lexText file text).value.all.value :=
  fun _ ht => (Token.read_of_mem_lexText ht).sound

/-! ## Tokens that are made -/

/-- Characters that a number may hold, signs apart, continue one. -/
theorem numberTail_of_chars {cs : List Char} (h : ∀ c ∈ cs, isNumberChar c = true) :
    numberTail cs = cs.length := by
  fun_induction numberTail cs with
  | case1 => rfl
  | case2 => rfl
  | case3 c hc => simp [h] at hc
  | case4 c d cs hexponent ih =>
    -- A sign is no such character.
    have hd := h d (by simp)
    simp only [isExponent, Bool.and_eq_true, Bool.or_eq_true, decide_eq_true_eq] at hexponent
    exfalso
    rcases hexponent.2 with rfl | rfl <;> revert hd <;> decide
  -- The character belongs to the number, and so do the others.
  | case5 c d cs hexponent hc ih =>
    rw [ih fun x hx => h x (List.mem_cons_of_mem _ hx)]
    exact Nat.add_comm _ _
  | case6 c d cs hexponent hc => exact absurd (h c (by simp)) hc
  | case7 c d cs hexponent hc => exact absurd (h c (by simp)) hc

/-- A number in decimal notation is a spelling. -/
private theorem Token.sound_of_decimal {t : Token} {n : Nat} (hkind : t.kind = .number)
    (hvalue : t.value = toString n) : t.Sound := by
  have hlist : t.value.toList = Nat.toDigits 10 n := by simp [hvalue]
  obtain ⟨d, ds, hds⟩ := List.exists_cons_of_ne_nil (@Nat.toDigits_ne_nil n 10)
  have hdigit : ∀ c ∈ d :: ds, c.isDigit = true := by
    intro c hc
    rw [← hds] at hc
    exact Nat.isDigit_of_mem_toDigits (by decide) (by decide) hc
  have hd : Text.isDigit d = true := by simp [Text.isDigit, hdigit d (by simp)]
  -- Its first character is a digit, and digits continue a number.
  have htail : numberTail ds = ds.length := by
    apply numberTail_of_chars
    intro c hc
    simp [isNumberChar, Text.isAlphanumeric, Char.isAlphanum, hdigit c (List.mem_cons_of_mem _ hc)]
  constructor
  · simp [hkind]
  · intro _ _
    rw [hkind, hlist, hds]
    exact ⟨.number hd htail, Spelled.notMem_of_number hd htail (by simp)⟩

private theorem sound_stringize (ts : List Token) (origin : Token) : (stringize ts origin).Sound :=
  Token.sound_of_string rfl

/-- Pasting gives a token that is read from its text, or leaves its operands. -/
theorem sound_paste {left right : Token} (hleft : left.Sound) (hright : right.Sound) :
    AllSound (paste left right).value := by
  intro t ht
  rcases of_mem_paste ht with rfl | rfl | hpasted
  · exact hleft
  · exact hright
  · exact (read_of_pasted? hpasted).sound

/-- Predefined macros stand for numbers in decimal notation and for strings. -/
private theorem Builtin.sound_token (b : Builtin) (site : Token) (count : Nat) :
    (b.token site count).Sound := by
  cases b with
  | line => exact Token.sound_of_decimal rfl rfl
  | file => exact Token.sound_of_string rfl
  | stamp text => exact Token.sound_of_string rfl
  | counter => exact Token.sound_of_decimal rfl rfl

/-! ## Replacement lists -/

/-- The replacement list of a definition is sound if its text is. -/
theorem Macro.sound_ofDefinition {body : List Token} (h : AllSound body) (name : String)
    (params : Option (List String)) :
    AllSound (Macro.ofDefinition name params body).value.body := by
  intro t ht
  rcases Macro.exists_of_mem_ofDefinition ht with ⟨u, hu, hface⟩ | hread
  · exact (h u hu).of_face hface
  · exact hread.sound

/-! ## Substitution -/

/-- An argument whose tokens are sound, as written and expanded. -/
def Argument.Sound (a : Argument) : Prop :=
  AllSound a.raw ∧ AllSound a.expanded

private theorem filterMap_map_some (ts : List Token) : (ts.map some).filterMap id = ts := by
  simp

/-- Operands are the tokens, or a place where there is none. -/
theorem filterMap_operands (ts : List Token) : (operands ts).filterMap id = ts := by
  cases ts with
  | nil => rfl
  | cons t ts => simp [operands]

namespace Signature

variable {sig : Signature} {args : List Argument}

/-- An operand is sound: a string, an argument as written, or the token itself. -/
private theorem sound_operand? (hargs : ∀ a ∈ args, a.Sound) {t : Token} (ht : t.Sound)
    {next : Option Token} {ts : List Token} {extra : Nat}
    (h : sig.operand? args t next = some (ts, extra)) : AllSound ts := by
  obtain ⟨-, -, a, -, rfl⟩ | ⟨-, -, rfl | ⟨a, ha, rfl⟩⟩ := of_operand? h
  · exact allSound_cons.2 ⟨sound_stringize _ _, allSound_nil⟩
  · exact allSound_cons.2 ⟨ht, allSound_nil⟩
  · exact (hargs a ha).1.withWhiteOf t

/-- What is pasted from sound tokens is sound. -/
private theorem sound_pasteOperand {last : Option Token} {right : List Token}
    (hlast : ∀ t ∈ last, t.Sound) (hright : AllSound right) :
    AllSound ((pasteOperand last right).value.filterMap id) := by
  cases last with
  | none =>
    show AllSound ((operands right).filterMap id)
    rwa [filterMap_operands]
  | some left =>
    have hleft := hlast left rfl
    cases right with
    -- An empty operand leaves the other one.
    | nil => exact allSound_cons.2 ⟨hleft, allSound_nil⟩
    | cons r rs =>
      obtain ⟨hr, hrs⟩ := allSound_cons.1 hright
      show AllSound ((((paste left r).value ++ rs).map some).filterMap id)
      rw [filterMap_map_some]
      exact allSound_append.2 ⟨sound_paste hleft hr, hrs⟩

/-- Substituting sound arguments keeps a replacement list sound. -/
theorem sound_substitute (hargs : ∀ a ∈ args, a.Sound) {name : String}
    {before res : List (Option Token)} {body : List Token}
    (hbefore : AllSound (before.filterMap id)) (hbody : AllSound body)
    (h : (sig.substitute name args before body).value = some res) :
    AllSound (res.filterMap id) := by
  fun_induction substitute sig name args before body with
  | case1 before =>
    obtain rfl := Option.some.inj h
    rw [List.filterMap_reverse]
    exact hbefore.reverse
  | case2 => cases h
  | case3 t ht last older r more right extra hright ih =>
    -- The operands of `##` are joined: the left one is the last token so far.
    obtain ⟨hr, hmore⟩ := allSound_cons.1 (allSound_cons.1 hbody).2
    have hjoined : AllSound ((pasteOperand last right).value.filterMap id) := by
      refine sound_pasteOperand (fun u hu => hbefore u ?_) (sound_operand? hargs hr hright)
      simp_all
    have holder : AllSound (older.filterMap id) :=
      hbefore.subset ((List.sublist_cons_self _ _).filterMap id).subset
    refine ih _ ?_ (hmore.subset (List.drop_subset _ _)) h
    rw [List.filterMap_append, List.filterMap_reverse]
    exact allSound_append.2 ⟨hjoined.reverse, holder⟩
  -- Nothing stands on the right of `##`, so it is dropped.
  | case4 t ht older more hends ih => exact ih hbefore (allSound_cons.1 hbody).2 h
  | case5 => cases h
  | case6 before t rest ht hoperand ts extra hts ih =>
    -- An operand of either operator stands for the argument as written.
    obtain ⟨hsound, hrest⟩ := allSound_cons.1 hbody
    refine ih ?_ (hrest.subset (List.drop_subset _ _)) h
    rw [List.filterMap_append, List.filterMap_reverse, filterMap_operands]
    exact allSound_append.2 ⟨(sound_operand? hargs hsound hts).reverse, hbefore⟩
  -- A token that is no parameter stands for itself.
  | case7 before t rest ht hoperand hindex ih =>
    obtain ⟨hsound, hrest⟩ := allSound_cons.1 hbody
    exact ih (allSound_cons.2 ⟨hsound, hbefore⟩) hrest h
  | case8 => cases h
  -- Any other parameter stands for the argument expanded.
  | case9 before t rest ht hoperand i hi a ha ih =>
    refine ih ?_ (allSound_cons.1 hbody).2 h
    have hexpanded := (hargs a (List.mem_of_getElem? ha)).2.withWhiteOf t
    rw [List.filterMap_append, List.filterMap_reverse, filterMap_map_some]
    exact allSound_append.2 ⟨hexpanded.reverse, hbefore⟩

/-- An empty argument that stands for one that was left out is sound. -/
private theorem sound_completeArguments (h : ∀ a ∈ args, a.Sound) :
    ∀ a ∈ sig.completeArguments args, a.Sound := by
  unfold completeArguments
  split
  · intro a ha
    cases List.mem_append.1 ha with
    | inl hmem => exact h a hmem
    -- The variable arguments that were left out are empty.
    | inr hmem =>
      rw [List.mem_singleton.1 hmem]
      exact ⟨allSound_nil, allSound_nil⟩
  · exact h

end Signature

/-- What an invocation is replaced by is sound, if its arguments are. -/
private theorem Macro.sound_replacement? {m : Macro} (hbody : AllSound m.body)
    {args : List Argument} (hargs : ∀ a ∈ args, a.Sound) {site : Token} {count : Nat}
    {ts : List Token} (h : (m.replacement? args site count).value = some ts) :
    AllSound ts := by
  cases m with
  | object name body =>
    obtain rfl := Option.some.inj h
    exact hbody
  | builtin name b =>
    obtain rfl := Option.some.inj h
    exact allSound_cons.2 ⟨b.sound_token site count, allSound_nil⟩
  -- Substitution starts from no tokens.
  | function name sig plain body =>
    obtain ⟨res, hres, rfl⟩ := Option.map_eq_some_iff.1 h
    refine Signature.sound_substitute (Signature.sound_completeArguments hargs) ?_ hbody hres
    simpa using allSound_nil

/-! ## Expansion -/

namespace Stack

/-- What is read is a token that was there, as it is or painted. -/
private theorem sound_of_next? {s s' : Stack} {t : Token} (hs : AllSound s.unread)
    (h : s.next? = some (t, s')) : t.Sound := by
  induction s with
  | nil => simp [next?] at h
  | cons f fs ih =>
    rw [unread, List.flatMap_cons, allSound_append] at hs
    unfold next? at h
    split at h
    · rename_i u us hf
      simp only [Option.some.injEq, Prod.mk.injEq] at h
      obtain ⟨rfl, -⟩ := h
      rw [hf] at hs
      -- Painting changes neither the kind nor the text.
      have hu := (allSound_cons.1 hs.1).1
      rcases paint_eq_or (f :: fs) u with hpaint | hpaint
      · rwa [hpaint]
      · exact hu.of_face (by rw [hpaint]; rfl)
    · exact ih hs.2 h

/-- Reading adds nothing to be read. -/
private theorem Advances.unread_subset {s s' : Stack} (h : Advances s s') :
    s'.unread ⊆ s.unread := by
  induction h with
  | refl => exact List.Subset.refl _
  | drop used more _ ih => exact List.Subset.trans ih (List.subset_append_right _ _)
  | @read f fs _ t ts next _ ih =>
    refine List.Subset.trans ih ?_
    intro u hu
    simp only [unread, List.flatMap_cons, List.mem_append, next, List.mem_cons] at hu ⊢
    exact hu.imp_left .inr

/-- Arguments that are read from sound tokens are sound. -/
private theorem sound_of_gather {limit : Option Nat} {depth : Nat} {before : List (List Token)}
    {current : List Token} {s s' : Stack} {args : List (List Token)} (hs : AllSound s.unread)
    (hbefore : ∀ a ∈ before, AllSound a) (hcurrent : AllSound current)
    (h : gather limit depth before current s = some (args, s')) : ∀ a ∈ args, AllSound a := by
  -- What is left after a token is sound, and so is the argument that ends there.
  have hleft : ∀ {s s₁ : Stack} {t : Token}, AllSound s.unread → s.next? = some (t, s₁) →
      AllSound s₁.unread :=
    fun hs hn => hs.subset (advances_of_next? hn).unread_subset
  have hend : ∀ {before : List (List Token)} {current : List Token},
      (∀ a ∈ before, AllSound a) → AllSound current →
      ∀ a ∈ endArgument before current, AllSound a := by
    intro before current hb hc a ha
    cases List.mem_cons.1 ha with
    | inl heq => exact heq ▸ hc.reverse
    | inr hmem => exact hb a hmem
  fun_induction gather limit depth before current s with
  | case1 => cases h
  | case2 _ _ _ _ _ _ hn _ ih => exact ih (hleft hs hn) (hend hbefore hcurrent) allSound_nil h
  | case3 _ _ _ _ _ _ hn _ _ ih =>
    exact ih (hleft hs hn) hbefore (allSound_cons.2 ⟨sound_of_next? hs hn, hcurrent⟩) h
  | case4 _ _ _ _ _ _ hn _ _ _ _ =>
    simp only [Option.some.injEq, Prod.mk.injEq] at h
    obtain ⟨rfl, -⟩ := h
    intro a ha
    exact hend hbefore hcurrent a (List.mem_reverse.1 ha)
  | case5 _ _ _ _ _ _ hn _ _ _ _ ih =>
    exact ih (hleft hs hn) hbefore (allSound_cons.2 ⟨sound_of_next? hs hn, hcurrent⟩) h
  | case6 _ _ _ _ _ _ hn _ _ _ ih =>
    exact ih (hleft hs hn) hbefore (allSound_cons.2 ⟨sound_of_next? hs hn, hcurrent⟩) h

/-- The arguments of an invocation are read from what was there. -/
private theorem sound_of_collect {s s' : Stack} {m : Macro} {args : List (List Token)}
    (hs : AllSound s.unread) (h : (s.collect m).value = some (args, s')) :
    ∀ a ∈ args, AllSound a := by
  obtain ⟨_, _, _, found, hnext, hgather, rfl, -⟩ := gather_of_collect h
  intro a ha
  have hleft := hs.subset (advances_of_next? hnext).unread_subset
  exact sound_of_gather hleft (by simp) allSound_nil hgather a (mem_of_mem_normalArguments ha)

end Stack

/-- The arguments of an invocation are sound if all that is left to be read is. -/
private theorem Expander.sound_of_move_invoke {x y : Expander} {env : Expansion} {m : Macro}
    {site : Token} {args : List (List Token)} (hs : AllSound x.stack.unread)
    (h : x.move env = .invoke m site args y) : ∀ a ∈ args, AllSound a := by
  obtain ⟨s, hnext, ⟨rfl, -⟩ | hcollect⟩ := read_of_move_invoke h
  · simp
  · -- What is left to read is part of what was there.
    have hleft := hs.subset (Stack.advances_of_next? hnext).unread_subset
    exact Stack.sound_of_collect hleft hcollect

/-- The replacement lists of all macros are sound. -/
def MacroTable.Sound (table : MacroTable) : Prop :=
  ∀ m ∈ table.macros, AllSound m.body

/-- It does not matter where a replacement is located. -/
theorem AllSound.relocated {ts : List Token} (h : AllSound ts) (m : Macro) (site : Token) :
    AllSound (Expander.relocated m site ts) := by
  apply AllSound.withWhiteOf
  intro t ht
  obtain ⟨u, hu, rfl⟩ := List.mem_map.1 ht
  exact (h u hu).of_face rfl

namespace Expansion

/-- The arguments that an invocation is given are sound, if each of the expansions opened for them
gives sound tokens. -/
private theorem sound_of_preExpand {env : Expansion} {depth start : Nat} {plain : List Bool}
    {args : List (List Token)} {before given : List Argument} {produced count : Nat}
    {notes : Array Note} (hargs : ∀ a ∈ args, AllSound a) (hbefore : ∀ a ∈ before, a.Sound)
    (hopens : ∀ inner x ts y, Opens env depth start inner x plain args produced count notes →
      expandFrom inner x [] = .ok ts y → AllSound ts)
    (h : (preExpand env depth plain args before start produced count notes).args = .ok given) :
    ∀ a ∈ given, a.Sound := by
  induction args generalizing plain before produced count notes with
  | nil =>
    rw [preExpand] at h
    cases h
    exact fun a ha => hbefore a (List.mem_reverse.1 ha)
  | cons a rest ih =>
    obtain ⟨ha, hrest⟩ := List.forall_mem_cons.1 hargs
    rcases of_preExpand_cons h with ⟨hplain, hroom, ts, x, hx, heq⟩ | ⟨hplain, heq⟩
    · rw [heq] at h
      have hts := hopens _ _ _ _ (.here hplain hroom rfl rfl) hx
      refine ih hrest (List.forall_mem_cons.2 ⟨⟨ha, hts⟩, hbefore⟩) ?_ h
      exact fun inner y us z hlater => hopens inner y us z (.expanded hplain hx hlater)
    · -- An argument that is not expanded has no tokens that are.
      rw [heq] at h
      refine ih hrest (List.forall_mem_cons.2 ⟨⟨ha, allSound_nil⟩, hbefore⟩) ?_ h
      exact fun inner y us z hlater => hopens inner y us z (.raw hplain hlater)

/-- The arguments that a macro is given are sound, as written and expanded. -/
private theorem sound_of_expandArguments {x y : Expander} {env : Expansion} {m : Macro}
    {args : List (List Token)} {given : List Argument} (hargs : ∀ a ∈ args, AllSound a)
    (hopens : ∀ inner z ts w, Opens env x.stack.length x.produced inner z m.plainParams args 0
      x.count x.notes → expandFrom inner z [] = .ok ts w → AllSound ts)
    (h : x.expandArguments env m args = .ok given y) : ∀ a ∈ given, a.Sound := by
  obtain ⟨hpre, -, -⟩ := Expander.preExpand_of_expandArguments h
  exact sound_of_preExpand hargs (by simp) hopens hpre

/-- Arguments are expanded in a condition just if their invocation is. -/
theorem Opens.condition {env inner : Expansion} {depth start : Nat} {x : Expander}
    {plain : List Bool} {args : List (List Token)} {produced count : Nat} {notes : Array Note}
    (h : Opens env depth start inner x plain args produced count notes) :
    inner.condition = env.condition := by
  induction h with
  | here hplain hroom hinner hx => rw [hinner, forArgument]
  | expanded hplain ha later ih => exact ih
  | raw hplain later ih => exact ih

/-- What is left of an expansion gives sound tokens, if all that is left to be read is sound. -/
private theorem sound_expandFrom (p : Point) {out res : List Token} {y : Expander}
    (hcond : p.env.condition = false) (htable : p.env.macros.Sound)
    (hstack : AllSound p.state.stack.unread) (hout : AllSound out)
    (hok : expandFrom p.env p.state out = .ok res y) : AllSound res := by
  induction p using run_induction generalizing out res y with
  | step p ih =>
    cases hmove : p.state.move p.env with
    | finish z =>
      rw [expandFrom_of_move_finish hmove] at hok
      cases hok
      exact hout.reverse
    | emit t z =>
      rw [expandFrom_of_move_emit hmove] at hok
      have ht := Stack.sound_of_next? hstack (Expander.next?_of_move_emit hcond hmove)
      have hleft := hstack.subset (Expander.advances_of_move_emit hmove).unread_subset
      exact ih _ (.emit hmove) hcond htable hleft (allSound_cons.2 ⟨ht, hout⟩) hok
    | invoke m site args z =>
      rw [expandFrom_of_move_invoke hmove] at hok
      cases hreplace : z.replace p.env m site args with
      | error e w => simp [hreplace] at hok
      | ok _ w =>
        simp only [hreplace] at hok
        obtain ⟨given, y₁, ts, hreplaced⟩ := Expander.replaced_of_replace hreplace
        have hinvokes := Expander.invokes_of_move hmove
        have hargs := Expander.sound_of_move_invoke hstack hmove
        -- The arguments are expanded by runs of their own, which read nothing but an argument.
        have hgiven : ∀ a ∈ given, a.Sound := by
          apply sound_of_expandArguments hargs _ hreplaced.expanded
          intro inner x us w hopens hx
          obtain ⟨⟨a, ha, hx₁⟩, -, hmacros⟩ := hopens.argument
          refine ih _ (.enter (.mk hmove hopens)) (hopens.condition.trans hcond) ?_ ?_
            allSound_nil hx
          · rwa [hmacros]
          · simpa [hx₁, Stack.unread] using hargs a ha
        have hbody := htable m (List.mem_of_find?_eq_some hinvokes.found)
        -- So what replaces the invocation is sound, and is read next.
        have hts := Macro.sound_replacement? hbody hgiven hreplaced.replacement
        have hleft := hstack.subset hinvokes.advances.unread_subset
        refine ih _ (.replace hmove hreplace) hcond htable ?_ hout hok
        rw [hreplaced.stack]
        exact allSound_append.2 ⟨hts.relocated m site, hleft⟩

/-- Expanding sound tokens with sound macros gives sound tokens. -/
theorem sound_expand {env : Expansion} {x y : Expander} {ts out : List Token}
    (hcond : env.condition = false) (htable : env.macros.Sound) (hts : AllSound ts)
    (h : x.expand env ts = .ok out y) : AllSound out := by
  apply sound_expandFrom (Point.start env x ts) hcond htable _ allSound_nil h
  simpa [Point.start, Stack.unread] using hts

end Expansion

end Preproc
