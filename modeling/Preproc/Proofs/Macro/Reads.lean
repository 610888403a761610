import Preproc.Proofs.Macro.Pasting

/-!
# What substitution reads

The expanded argument of a parameter is read where the parameter is no operand of `#` or `##`.
Which places these are depends on the replacement list alone: a pasting operator takes what stands
before it, if anything does, and the operand after it; at the start of the list it is dropped, and
what follows is no operand.

Of the expanded arguments nothing else matters, and whatever is read shows: its tokens are never
pasted to others, so the replacement is longer by their number.

## Key results

- `substitute_congr`: the replacement depends on the arguments as written and on what is read
- `tokenCount_substitute`: how many tokens of the replacement are read from expanded arguments
-/

namespace Preproc

/-- What is done next matters only for the value at hand. -/
private theorem Noted.bind_congr {α β : Type} {x : Noted α} {f g : α → Noted β}
    (h : f x.value = g x.value) : (x >>= f) = x >>= g := by
  change Noted.mk _ _ = Noted.mk _ _
  rw [h]

/-! ## Operands -/

/-- An operand leaves a token or a placemarker. -/
theorem operands_ne_nil (ts : List Token) : operands ts ≠ [] := by
  cases ts <;> simp [operands]

/-- How many tokens there are beside placemarkers. -/
def tokenCount (ts : List (Option Token)) : Nat :=
  (ts.filterMap id).length

/-- Placemarkers do not count. -/
theorem tokenCount_cons (t : Option Token) (ts : List (Option Token)) :
    tokenCount (t :: ts) = t.toList.length + tokenCount ts := by
  cases t with
  | none => simp [tokenCount]
  | some t => simp [tokenCount, Nat.add_comm]

/-- Tokens of two lists are counted together. -/
@[simp]
theorem tokenCount_append (ts us : List (Option Token)) :
    tokenCount (ts ++ us) = tokenCount ts + tokenCount us := by
  simp [tokenCount]

/-- The order does not matter. -/
@[simp]
theorem tokenCount_reverse (ts : List (Option Token)) : tokenCount ts.reverse = tokenCount ts := by
  simp [tokenCount]

/-- Without placemarkers all count. -/
@[simp]
theorem tokenCount_map_some (ts : List Token) : tokenCount (ts.map some) = ts.length := by
  simp [tokenCount]

/-- White space adds no token. -/
@[simp]
theorem length_withWhiteOf (t : Token) (ts : List Token) :
    (withWhiteOf t ts).length = ts.length := by
  cases ts <;> rfl

/-- The arguments with none of them expanded. -/
def unexpanded (args : List Argument) : List Argument :=
  args.map fun a => ⟨a.raw, []⟩

namespace Signature

/-! ## Reads -/

/-- How many further tokens the operand takes that starts with `t`, before `next`. -/
def operandExtra (sig : Signature) (t : Token) (next : Option Token) : Nat :=
  if sig.isStringize t next then 1 else 0

/-- The parameters whose expanded arguments are read when arguments are substituted in `body`, one
by one; `started` if there is something before it that can be pasted to. -/
def reads (sig : Signature) (started : Bool) (body : List Token) : List Nat :=
  match body with
  | [] => []
  | t :: rest =>
    if t.isPaste then
      match started, rest with
      | true, r :: more => sig.reads true (more.drop (sig.operandExtra r more.head?))
      | _, more => sig.reads started more
    else if sig.isStringize t rest.head? || (sig.isParam t && rest.head?.any Token.isPaste) then
      sig.reads true (rest.drop (sig.operandExtra t rest.head?))
    else (sig.index? t).toList ++ sig.reads true rest
termination_by body.length
decreasing_by all_goals (simp only [List.length_cons, List.length_drop]; omega)

/-- The tokens of the expanded arguments that are read. -/
def readTokens (sig : Signature) (args : List Argument) (started : Bool) (body : List Token) :
    List Token :=
  (sig.reads started body).flatMap fun i => args[i]?.elim [] (·.expanded)

variable {sig : Signature} {args args' : List Argument} {started : Bool} {name : String}
  {t r : Token} {rest more : List Token} {before : List (Option Token)}

/-- Nothing is read of the operand behind a pasting operator. -/
private theorem reads_paste (ht : t.isPaste = true) : sig.reads true (t :: r :: more) =
    sig.reads true (more.drop (sig.operandExtra r more.head?)) := by
  rw [reads.eq_def]
  simp only [if_pos ht]

/-- A pasting operator without operands is passed. -/
private theorem reads_strayPaste (ht : t.isPaste = true) (h : started = false ∨ rest = []) :
    sig.reads started (t :: rest) = sig.reads started rest := by
  rw [reads.eq_def]
  simp only [if_pos ht]
  split
  · simp at h
  · rfl

/-- Nothing is read of an operand. -/
private theorem reads_operand (ht : ¬t.isPaste = true) (hoperand :
    (sig.isStringize t rest.head? || sig.isParam t && rest.head?.any Token.isPaste) = true) :
    sig.reads started (t :: rest) = sig.reads true (rest.drop (sig.operandExtra t rest.head?)) := by
  rw [reads.eq_def]
  simp only [if_neg ht, if_pos hoperand]

/-- A parameter that is no operand is read. -/
private theorem reads_plain (ht : ¬t.isPaste = true) (hoperand :
    ¬(sig.isStringize t rest.head? || sig.isParam t && rest.head?.any Token.isPaste) = true) :
    sig.reads started (t :: rest) = (sig.index? t).toList ++ sig.reads true rest := by
  rw [reads.eq_def]
  simp only [if_neg ht, if_neg hoperand]

/-- Only parameters are read. -/
theorem lt_of_mem_reads {i : Nat} {body : List Token} (h : i ∈ sig.reads started body) :
    i < sig.params.length := by
  fun_induction reads sig started body with
  | case1 => cases h
  | case2 t ht r more ih => exact ih h
  | case3 started t ht rest hends ih => exact ih h
  | case4 started t rest ht hoperand ih => exact ih h
  -- Only here a parameter is read.
  | case5 started t rest ht hoperand ih =>
    obtain hhere | hlater := List.mem_append.1 h
    · exact index?_lt (by simpa using hhere)
    · exact ih hlater

/-! ## Substitution -/

/-- A pasting operator without operands is dropped with a note. -/
private theorem substitute_strayPaste (ht : t.isPaste = true) (h : before = [] ∨ rest = []) :
    sig.substitute name args before (t :: rest) = (do
      Noted.note (.pasteDropped name)
      sig.substitute name args before rest) := by
  rw [substitute.eq_def]
  simp only [if_pos ht]
  split
  · simp at h
  · rfl

/-- Pasting leaves a token or a placemarker. -/
theorem pasteOperand_ne_nil (last : Option Token) (right : List Token) :
    (pasteOperand last right).value ≠ [] := by
  unfold pasteOperand
  split
  · exact operands_ne_nil _
  · simp
  · rename_i left r rs
    simp [paste_ne_nil left r]

/-- An operand stands for the argument as written. -/
private theorem operand?_congr
    (hraw : ∀ i : Nat, args'[i]?.map Argument.raw = args[i]?.map Argument.raw) (t : Token)
    (next : Option Token) : sig.operand? args' t next = sig.operand? args t next := by
  -- Operands are made from what the arguments are before expansion.
  have hmap : ∀ {α : Type} (f : List Token → α) (i : Nat),
      args'[i]?.map (fun a => f a.raw) = args[i]?.map (fun a => f a.raw) := by
    intro α f i
    have h := congrArg (Option.map f) (hraw i)
    simpa only [Option.map_map, Function.comp_def] using h
  unfold operand?
  split
  · congr 1
    funext i
    exact hmap (fun raw => ([stringize raw t], 1)) i
  · split
    · exact hmap (fun raw => (withWhiteOf t raw, 0)) _
    · rfl

/-- How many tokens an operand takes depends on the replacement list alone. -/
private theorem extra_of_operand? {next : Option Token} {ts : List Token} {extra : Nat}
    (h : sig.operand? args t next = some (ts, extra)) : extra = sig.operandExtra t next := by
  obtain ⟨hstringize, rfl, -⟩ | ⟨hstringize, rfl, -⟩ := of_operand? h
  · simp [operandExtra, hstringize]
  · simp [operandExtra, hstringize]

/-- A replacement depends on the arguments as written, and of the expanded arguments on those that
are read. -/
theorem substitute_congr (hraw : ∀ i : Nat, args'[i]?.map Argument.raw = args[i]?.map Argument.raw)
    (name : String) {body : List Token}
    (hstarted : body.head?.any Token.isPaste = true → started = !before.isEmpty)
    (hreads : ∀ i ∈ sig.reads started body, args'[i]? = args[i]?) :
    sig.substitute name args' before body = sig.substitute name args before body := by
  -- Whether something stands before the rest matters only where the rest starts with a paste: an
  -- argument that is read may be empty, but no paste follows it.
  fun_induction substitute sig name args before body generalizing started with
  | case1 before => rw [substitute.eq_def]
  | case2 t ht last older r more hnone =>
    rw [substitute.eq_def]
    simp only [if_pos ht, operand?_congr hraw, hnone]
  -- An operand is pasted, as written.
  | case3 t ht last older r more right extra hright ih =>
    obtain rfl : started = true := hstarted ht
    rw [substitute.eq_def]
    simp only [if_pos ht, operand?_congr hraw, hright]
    rw [reads_paste ht, ← extra_of_operand? hright] at hreads
    refine Noted.bind_congr (ih _ (fun _ => ?_) hreads)
    simp [pasteOperand_ne_nil]
  | case4 t ht older more hends ih =>
    have hstray := List.nil_or_nil_of_not_cons hends
    obtain rfl := hstarted ht
    rw [substitute_strayPaste ht hstray]
    rw [reads_strayPaste ht (hstray.imp (by rintro rfl; rfl) id)] at hreads
    exact Noted.bind_congr (ih (fun _ => rfl) hreads)
  | case5 before t rest ht hoperand hnone =>
    rw [substitute.eq_def]
    simp only [if_neg ht, if_pos hoperand, operand?_congr hraw, hnone]
  | case6 before t rest ht hoperand ts extra hts ih =>
    rw [substitute.eq_def]
    simp only [if_neg ht, if_pos hoperand, operand?_congr hraw, hts]
    rw [reads_operand ht hoperand, ← extra_of_operand? hts] at hreads
    refine ih (fun _ => ?_) hreads
    simp [operands_ne_nil]
  | case7 before t rest ht hoperand hindex ih =>
    rw [substitute.eq_def]
    simp only [if_neg ht, if_neg hoperand, hindex]
    rw [reads_plain ht hoperand, hindex] at hreads
    exact ih (fun _ => rfl) hreads
  | case8 before t rest ht hoperand i hi hnone =>
    rw [reads_plain ht hoperand, hi] at hreads
    rw [substitute.eq_def]
    simp only [if_neg ht, if_neg hoperand, hi, hreads i (by simp), hnone]
  -- The expanded argument is read, so it is the same.
  | case9 before t rest ht hoperand i hi a ha ih =>
    rw [reads_plain ht hoperand, hi] at hreads
    rw [substitute.eq_def]
    simp only [if_neg ht, if_neg hoperand, hi, hreads i (by simp), ha]
    refine ih (fun hpaste => ?_) fun j (hj : j ∈ sig.reads true rest) => hreads j (by simp [hj])
    simp [isParam, hi, hpaste] at hoperand

/-- Beside the tokens that are read from expanded arguments there are as many as if no argument were
expanded. -/
theorem tokenCount_substitute (started : Bool) (bare : List (Option Token)) {body : List Token}
    {res : List (Option Token)}
    (hbefore : body.head?.any Token.isPaste = true →
      started = !before.isEmpty ∧ bare.head? = before.head?)
    (h : (sig.substitute name args before body).value = some res) :
    ∃ res', (sig.substitute name (unexpanded args) bare body).value = some res' ∧
      tokenCount res + tokenCount bare = tokenCount res' + tokenCount before +
        (sig.readTokens args started body).length := by
  have hraw : ∀ i : Nat, (unexpanded args)[i]?.map Argument.raw = args[i]?.map Argument.raw := by
    intro i
    simp [unexpanded, Function.comp_def]
  -- The two sides come to a paste with the same token before it, so they paste alike.
  fun_induction substitute sig name args before body generalizing started bare with
  | case1 before =>
    obtain rfl := Option.some.inj h
    refine ⟨bare.reverse, by rw [substitute.eq_def]; rfl, ?_⟩
    simp only [readTokens, reads, tokenCount_reverse, List.flatMap_nil, List.length_nil]
    omega
  | case2 t ht last older r more hnone => cases h
  -- Both sides paste the same operand to the same token.
  | case3 t ht last older r more right extra hright ih =>
    obtain ⟨rfl, hhead⟩ := hbefore ht
    obtain ⟨older', rfl⟩ : ∃ older', bare = last :: older' := List.head?_eq_some_iff.1 hhead
    have hne : (pasteOperand last right).value.reverse ≠ [] := by simp [pasteOperand_ne_nil]
    have hnext : ((pasteOperand last right).value.reverse ++ older').head? =
        ((pasteOperand last right).value.reverse ++ older).head? := by
      rw [List.head?_append_of_ne_nil _ hne, List.head?_append_of_ne_nil _ hne]
    obtain ⟨res', hres', hcount⟩ := ih _ true _
      (fun _ => ⟨by simp [pasteOperand_ne_nil], hnext⟩) h
    refine ⟨res', ?_, ?_⟩
    · rw [substitute.eq_def]
      simp only [if_pos ht, operand?_congr hraw, hright]
      exact hres'
    · rw [readTokens, List.isEmpty_cons, Bool.not_false, reads_paste ht, ← extra_of_operand? hright,
        ← readTokens]
      simp only [tokenCount_append, tokenCount_cons] at hcount ⊢
      omega
  | case4 t ht older more hends ih =>
    have hstray := List.nil_or_nil_of_not_cons hends
    obtain ⟨rfl, hhead⟩ := hbefore ht
    obtain ⟨res', hres', hcount⟩ := ih _ bare (fun _ => ⟨rfl, hhead⟩) h
    have hstray' : bare = [] ∨ more = [] := by
      refine hstray.imp (fun hnil => ?_) id
      rw [hnil] at hhead
      exact List.head?_eq_none_iff.1 hhead
    refine ⟨res', ?_, ?_⟩
    · rw [substitute_strayPaste ht hstray']
      exact hres'
    · rw [readTokens, reads_strayPaste ht (hstray.imp (by rintro rfl; rfl) id)]
      exact hcount
  | case5 before t rest ht hoperand hnone => cases h
  -- Both sides take the same operand, as written.
  | case6 before t rest ht hoperand ts extra hts ih =>
    have hne : (operands ts).reverse ≠ [] := by simp [operands_ne_nil]
    have hnext : ((operands ts).reverse ++ bare).head? =
        ((operands ts).reverse ++ before).head? := by
      rw [List.head?_append_of_ne_nil _ hne, List.head?_append_of_ne_nil _ hne]
    obtain ⟨res', hres', hcount⟩ := ih true _
      (fun _ => ⟨by simp [operands_ne_nil], hnext⟩) h
    refine ⟨res', ?_, ?_⟩
    · rw [substitute.eq_def]
      simp only [if_neg ht, if_pos hoperand, operand?_congr hraw, hts]
      exact hres'
    · rw [readTokens, reads_operand ht hoperand, ← extra_of_operand? hts, ← readTokens]
      simp only [tokenCount_append] at hcount
      omega
  -- Both sides take the token itself.
  | case7 before t rest ht hoperand hindex ih =>
    obtain ⟨res', hres', hcount⟩ := ih true (some t :: bare) (fun _ => ⟨rfl, rfl⟩) h
    refine ⟨res', ?_, ?_⟩
    · rw [substitute.eq_def]
      simp only [if_neg ht, if_neg hoperand, hindex]
      exact hres'
    · rw [readTokens, reads_plain ht hoperand, hindex, Option.toList_none, List.nil_append,
        ← readTokens]
      simp only [tokenCount_cons] at hcount
      omega
  | case8 before t rest ht hoperand i hi hnone => cases h
  | case9 before t rest ht hoperand i hi a ha ih =>
    -- A parameter before a paste is an operand.
    have hnext : ¬rest.head?.any Token.isPaste = true := by
      intro hpaste
      simp [isParam, hi, hpaste] at hoperand
    obtain ⟨res', hres', hcount⟩ := ih true bare (fun hpaste => absurd hpaste hnext) h
    refine ⟨res', ?_, ?_⟩
    · rw [substitute.eq_def]
      simp only [if_neg ht, if_neg hoperand, hi, unexpanded, List.getElem?_map, ha]
      exact hres'
    · have hreads : sig.readTokens args started (t :: rest) =
          a.expanded ++ sig.readTokens args true rest := by
        rw [readTokens, reads_plain ht hoperand, hi]
        simp [readTokens, ha]
      simp only [tokenCount_append, tokenCount_reverse, tokenCount_map_some,
        length_withWhiteOf] at hcount
      rw [hreads, List.length_append]
      omega

end Signature

end Preproc
