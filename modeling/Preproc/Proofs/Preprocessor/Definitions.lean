import Preproc.Proofs.Expansion.Sound
import Preproc.Proofs.Preprocessor.Directives

/-!
# What a run defines

Macros come from the settings, from directives, and are predefined. The replacement list of a
definition stands in the text that it is read from, so the macros that a run knows are sound at its
start, and stay so whatever directives are carried out: only a definition adds to them.

## Key results

- `subset_of_readDefinition`, `subset_of_parseLine`: a definition stands in its text
- `Context.sound_start`: a run starts with sound macros
- `Context.Keeps.sound`: what leaves the definitions alone keeps them sound
- `Context.sound_directive`: a line of sound tokens keeps the macros sound
-/

namespace Preproc

/-! ## Definitions -/

/-- What is left behind the parameters stands in the text. -/
private theorem subset_of_readParams (ts : List Token) : (readParams ts).2 ⊆ ts := by
  fun_induction readParams ts with
  | case1 => exact List.Subset.refl _
  | case2 => exact List.subset_cons_self _ _
  | case3 => exact List.nil_subset _
  | case4 => exact fun t ht => List.mem_cons_of_mem _ (List.mem_cons_of_mem _ ht)
  -- Behind a comma the other parameters are read.
  | case5 t _ _ d more _ _ ps last hread ih =>
    rw [hread] at ih
    exact fun t ht => List.mem_cons_of_mem _ (List.mem_cons_of_mem _ (ih ht))
  | case6 => exact List.subset_cons_self _ _
  | case7 => exact List.Subset.refl _

/-- The replacement list of a definition stands in its text. -/
theorem subset_of_readDefinition {ts body : List Token} {name : Token}
    {params : Option (List Token)} (h : readDefinition ts = .ok ((name, params), body)) :
    body ⊆ ts := by
  unfold readDefinition at h
  split at h
  · cases h
  · rename_i t rest
    split at h
    · split at h
      · rename_i ps body' hsig
        cases h
        refine List.subset_cons_of_subset _ ?_
        unfold readSignature? at hsig
        split at hsig
        · cases hsig
        · rename_i u more
          split at hsig
          · -- The body starts behind the closing parenthesis.
            have hsub := subset_of_readParams more
            split at hsig
            · rename_i ps' v last hread
              rw [hread] at hsub
              split at hsig
              · cases hsig
                intro x hx
                exact List.mem_cons_of_mem _ (hsub (List.mem_cons_of_mem _ hx))
              · cases hsig
            · cases hsig
          · cases hsig
      · cases h
        exact List.subset_cons_self _ _
    · cases h

/-- The body without an equals sign before it is part of the body. -/
theorem dropEquals_subset (ts : List Token) : dropEquals ts ⊆ ts := by
  unfold dropEquals
  split
  · exact List.Subset.refl _
  · split
    · exact List.subset_cons_self _ _
    · exact List.Subset.refl _

/-- A text that defines a macro is read as a definition. -/
theorem Macro.exists_of_ofText {text : String} {m : Macro}
    (h : (Macro.ofText text).value = .ok m) :
    ∃ name params rest,
      readDefinition (lexText "<command line>" text.toList).value.all.value =
        .ok ((name, params), rest) ∧
      m = (Macro.ofDefinition name.value (params.map (·.map (·.value)))
        (dropEquals rest)).value := by
  unfold Macro.ofText at h
  simp only [Noted.value_bind] at h
  split at h
  · cases h
  · rename_i name params rest hread
    cases h
    exact ⟨name, params, rest, hread, rfl⟩

/-- A text defines a macro of sound tokens. -/
theorem Macro.sound_ofText {text : String} {m : Macro} (h : (Macro.ofText text).value = .ok m) :
    AllSound m.body := by
  obtain ⟨name, params, rest, hread, rfl⟩ := Macro.exists_of_ofText h
  apply Macro.sound_ofDefinition
  apply (allSound_lexText "<command line>" text.toList).subset
  exact List.Subset.trans (dropEquals_subset rest) (subset_of_readDefinition hread)

namespace MacroTable

/-- A macro of sound tokens can be added. -/
theorem Sound.define {table : MacroTable} (h : table.Sound) {m : Macro} (hm : AllSound m.body) :
    (table.define m).Sound := by
  unfold MacroTable.define
  -- A macro of the same name is replaced, or the new one is added.
  split
  · intro n hn
    obtain ⟨k, hk, rfl⟩ := List.mem_map.1 hn
    split
    · exact hm
    · exact h k hk
  · intro n hn
    cases List.mem_append.1 hn with
    | inl hmem => exact h n hmem
    | inr hmem => rwa [List.mem_singleton.1 hmem]

/-- A macro can be taken away. -/
theorem Sound.undefine {table : MacroTable} (h : table.Sound) (name : String) :
    (table.undefine name).Sound :=
  fun m hm => h m (List.mem_filter.1 hm).1

/-- A macro that stands for a number is sound. -/
private theorem sound_constantMacro (name : String) {value : String} {d : Char} {cs : List Char}
    (hvalue : value.toList = d :: cs) (hd : Text.isDigit d = true)
    (hcs : ∀ c ∈ cs, isNumberChar c = true) : AllSound (constantMacro name value).body := by
  have htail := numberTail_of_chars hcs
  refine allSound_cons.2 ⟨⟨by simp, fun _ _ => ?_⟩, allSound_nil⟩
  rw [hvalue]
  exact ⟨.number hd htail, Spelled.notMem_of_number hd htail (by simp)⟩

/-- The predefined macros are sound. -/
private theorem sound_predefined (now : Clock) : (predefined now).Sound := by
  intro m hm
  simp only [predefined, predefinedMacros, List.mem_cons, List.not_mem_nil, or_false] at hm
  -- Five of them have no replacement list, and three stand for numbers.
  rcases hm with rfl | rfl | rfl | rfl | rfl | rfl | rfl | rfl
  · exact allSound_nil
  · exact allSound_nil
  · exact allSound_nil
  · exact allSound_nil
  · exact allSound_nil
  · exact sound_constantMacro _ (by decide : "1".toList = ['1']) (by decide) (by simp)
  · exact sound_constantMacro _ (by decide : "1".toList = ['1']) (by decide) (by simp)
  · exact sound_constantMacro _ (by decide : "201103L".toList = '2' :: "01103L".toList) (by decide)
      (List.all_eq_true.1 (by decide))

end MacroTable

/-- The macros that a run starts with are sound. -/
theorem Context.sound_start (config : Config) (now : Clock) :
    (Context.start config now).macros.Sound := by
  unfold Context.start
  apply List.foldlRecOn (motive := fun c : Context => c.macros.Sound)
  · exact MacroTable.sound_predefined now
  · -- Each setting defines a macro, or is passed over.
    intro c hc definition _
    dsimp only
    split
    · rename_i m hm
      exact hc.define (Macro.sound_ofText hm)
    · exact hc

/-! ## Directives -/

/-- A definition stands in the line that it is read from. -/
private theorem subset_of_readOperands {p : Production} {line rest body last : List Token}
    {word name : Token} {params : Option (List Token)}
    (h : (p.readOperands line word rest).value = some (.define name params body, last)) :
    body ⊆ rest := by
  cases p with
  | define =>
    simp only [Production.readOperands] at h
    split at h
    · rename_i name' params' body' hread
      cases h
      exact subset_of_readDefinition hread
    · cases h
  | undef =>
    simp only [Production.readOperands] at h
    split at h
    · rename_i t last'
      cases htest : t.isName <;> simp [htest] at h
    · cases h
  | inclusion =>
    obtain ⟨⟨target, last'⟩, -, h⟩ := Option.map_eq_some_iff.1 h
    cases h
  -- No other directive is a definition.
  | _ => cases h

/-- A definition stands behind the mark that starts a directive. -/
private theorem subset_of_readDirective {line rest body last : List Token} {ps : List Production}
    {name : Token} {params : Option (List Token)}
    (h : (readDirective line rest ps).value = (.define name params body, last)) : body ⊆ rest := by
  induction ps with
  | nil => cases h
  | cons p ps ih =>
    rw [readDirective, Noted.value_bind] at h
    split at h
    · exact ih h
    · -- This production has read the line, and a definition is made from the operands alone.
      rename_i d last' hread
      have hd : (d, last') = (.define name params body, last) := by
        split at h <;> exact h
      cases hd
      cases rest with
      | nil => cases hread
      | cons word rest =>
        rw [Production.read?] at hread
        split at hread
        · exact List.subset_cons_of_subset _ (subset_of_readOperands hread)
        · cases hread

/-- A definition stands in its line. -/
theorem subset_of_parseLine {skipping : Bool} {line body rest : List Token} {d : DirectiveLine}
    {name : Token} {params : Option (List Token)}
    (h : (parseLine skipping line).value = .ok (d, rest))
    (hd : d.directive = .define name params body) : body ⊆ line := by
  unfold parseLine parseLineWith at h
  split at h
  · cases h
  · rename_i t ts
    split at h
    · cases h
      exact List.subset_cons_of_subset _ (subset_of_readDirective (Prod.ext hd rfl))
    · cases h

namespace Context

/-- The macros that are defined, as a part of what is known. -/
def definitions (c : Context) : List Macro :=
  c.macros.macros

private theorem aloof_definitions : Aloof definitions := fun _ _ _ => rfl

/-- Looking defines nothing. -/
theorem LooksOnly.keeps_definitions {α : Type} {act : ContextM α} (h : LooksOnly act) :
    Keeps definitions act :=
  fun _ _ _ hok => (h hok).macros

private theorem keeps_definitions_unbalanced (env : Environment) (d : Diagnostic) :
    Keeps definitions (unbalanced env d) :=
  (looksOnly_unbalanced env d).keeps_definitions

/-- Macros that are left alone stay sound. -/
theorem Keeps.sound {α : Type} {act : ContextM α} (h : Keeps definitions act) {c c' : Context}
    {a : α} (hok : act c = .ok a c') (hc : c.macros.Sound) : c'.macros.Sound := by
  have hsame : c'.macros.macros = c.macros.macros := h hok
  intro m hm
  rw [hsame] at hm
  exact hc m hm

/-- A directive keeps the macros sound, if what it defines is sound. -/
private theorem sound_carryOut {env : Environment} {base : Nat} {d : DirectiveLine} {c c' : Context}
    {r : Option Inclusion} (hc : c.macros.Sound)
    (hbody : ∀ name params body, d.directive = .define name params body → AllSound body)
    (h : carryOut env base d c = .ok r c') : c'.macros.Sound := by
  cases hd : d.directive.isConditional with
  | true =>
    have hkeeps : Keeps definitions (carryOut env base d) :=
      aloof_definitions.carryOut_of_isConditional hd
        (fun _ => (looksOnly_test _ _ _).keeps_definitions) (keeps_definitions_unbalanced env)
    exact hkeeps.sound h hc
  | false =>
    obtain ⟨tokens, directive⟩ := d
    cases directive with
    -- Only these two change the definitions.
    | define name params body =>
      cases h
      exact hc.define (Macro.sound_ofDefinition (hbody _ _ _ rfl) _ _)
    | undef name =>
      cases h
      exact hc.undefine name.value
    | inclusion target once =>
      exact (looksOnly_inclusion? _ _ _ _).keeps_definitions.sound h hc
    | pragma args =>
      unfold carryOut at h
      simp only at h
      split at h
      · cases h
        exact hc
      · cases h
        exact hc
    | other =>
      exact ((looksOnly_note _).bind fun _ => looksOnly_pure _).keeps_definitions.sound h hc
    | _ => cases hd

/-- A line that starts with `#` defines what stands in it. -/
theorem sound_directive {env : Environment} {base : Nat} {line : List Token} {c c' : Context}
    {r : Option Inclusion} (h : directive env base line c = .ok r c') (hc : c.macros.Sound)
    (hline : AllSound line) : c'.macros.Sound := by
  unfold directive at h
  rw [ContextM.get_bind] at h
  obtain ⟨parsed, c₁, hkeep, h⟩ := ContextM.bind_eq_ok_iff.1 h
  -- Reading the line makes notes, and nothing else.
  have hparsed : (parseLine (!c.conditionals.active) line).value = parsed := by
    cases hkeep
    rfl
  have hc₁ : c₁.macros.Sound := (looksOnly_keep _).keeps_definitions.sound hkeep hc
  cases parsed with
  | error e =>
    exact ((looksOnly_note _).bind fun _ => looksOnly_pure _).keeps_definitions.sound h hc₁
  | ok read =>
    obtain ⟨d, rest⟩ := read
    simp only at h
    split at h
    · exact (looksOnly_pure _).keeps_definitions.sound h hc₁
    · refine sound_carryOut hc₁ ?_ h
      intro name params body hd
      exact hline.subset (subset_of_parseLine hparsed hd)

/-- Including a file defines nothing, until its lines are read. -/
theorem keeps_definitions_including (env : Environment) (opened : Nat) (i : Inclusion) :
    Keeps definitions (including env opened i) := by
  have hmarks : Keeps definitions (markOnce env i.path) := by
    intro c a c' h
    cases h
    rfl
  refine (keeps_enters hmarks).bind fun b => ?_
  cases b with
  | true => exact (looksOnly_reading env opened i).keeps_definitions
  | false => exact keeps_pure none

/-- Closing groups defines nothing. -/
theorem keeps_definitions_closeGroups (env : Environment) (file : String) (line base : Nat) :
    Keeps definitions (closeGroups env file line base) :=
  aloof_definitions.closeGroups (keeps_definitions_unbalanced env) file line base

/-- Sound tokens are expanded to sound tokens. -/
theorem sound_expand {env : Environment} {ts out : List Token} {c c' : Context}
    (h : expand env false ts c = .ok out c') (hc : c.macros.Sound) (hts : AllSound ts) :
    AllSound out := by
  rw [expand_apply] at h
  split at h
  · rename_i out' x hok
    cases h
    exact Expansion.sound_expand rfl hc hts hok
  · cases h

end Context

end Preproc
