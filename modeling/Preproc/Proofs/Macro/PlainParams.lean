import Preproc.Proofs.Macro.NormalForm
import Preproc.Proofs.Samples

/-!
# Which arguments have to be expanded

An argument is expanded only if its parameter occurs plainly in the trimmed replacement list. What
is read of expanded arguments, however, is decided by the replacement list once its constants are
pasted. The two agree as long as pasting makes no parameter and no pasting operator: then a
parameter that is read occurs plainly, and leaving the other arguments unexpanded cannot be told
from the replacement.

Pasting `a ## b` makes a parameter where one is called `ab`; and `# ## # ## x` makes a pasting
operator that has nothing to paste to, so that `x` is no operand any more.

## Key results

- `occursPlainly_of_mem_reads`: where pasting operators stand apart, only plain parameters are read
- `sparesSafely_iff`: when arguments can be left unexpanded
- `not_sparesSafely_pasted`: pasting that makes a parameter, or a pasting operator
-/

namespace Preproc

/-! ## Arguments left unexpanded -/

/-- The arguments of an invocation with only those expanded that `plain` tells, and those beyond
it. -/
def spare : List Bool → List Argument → List Argument
  | _, [] => []
  | plain, a :: args => (if plain.headD true then a else ⟨a.raw, []⟩) :: spare plain.tail args

/-- No argument is lost. -/
@[simp]
theorem length_spare (plain : List Bool) (args : List Argument) :
    (spare plain args).length = args.length := by
  induction args generalizing plain with
  | nil => rfl
  | cons a args ih => simp [spare, ih]

/-- An argument is left as it is, or unexpanded. -/
private theorem getElem?_spare (plain : List Bool) (args : List Argument) (i : Nat) :
    (spare plain args)[i]? =
      args[i]?.map fun a => if plain.getD i true then a else ⟨a.raw, []⟩ := by
  induction args generalizing plain i with
  | nil => rfl
  | cons a args ih =>
    cases i with
    | zero => cases plain <;> rfl
    | succ i =>
      -- Arguments and marks are counted together.
      have hplain : plain.getD (i + 1) true = plain.tail.getD i true := by cases plain <;> simp
      simp only [spare, List.getElem?_cons_succ, ih, hplain]

/-- An empty argument behind the others has nothing to be left out. -/
private theorem spare_append_empty (plain : List Bool) (args : List Argument) :
    spare plain (args ++ [⟨[], []⟩]) = spare plain args ++ [⟨[], []⟩] := by
  induction args generalizing plain with
  | nil => simp [spare]
  | cons a args ih => simp [spare, ih]

/-- Arguments that were expanded where they have to be are left as they are. -/
private theorem spare_of_preExpand {env : Expansion} {depth start : Nat} {plain : List Bool}
    {args : List (List Token)} {before given : List Argument} {produced count : Nat}
    {notes : Array Note}
    (h : (preExpand env depth plain args before start produced count notes).args = .ok given) :
    ∃ later, given = before.reverse ++ later ∧ spare plain later = later := by
  induction args generalizing plain before produced count notes with
  | nil =>
    rw [preExpand] at h
    simp only [Except.ok.injEq] at h
    exact ⟨[], by simp [h], rfl⟩
  | cons a rest ih =>
    -- The first argument is expanded, or its parameter is not plain.
    rcases of_preExpand_cons h with ⟨hplain, -, ts, x, -, heq⟩ | ⟨hraw, heq⟩
    · rw [heq] at h
      obtain ⟨later, rfl, hlater⟩ := ih h
      exact ⟨⟨a, ts⟩ :: later, by simp, by rw [spare, if_pos hplain, hlater]⟩
    · rw [heq] at h
      obtain ⟨later, rfl, hlater⟩ := ih h
      exact ⟨⟨a, []⟩ :: later, by simp, by rw [spare, hraw, hlater]; rfl⟩

/-- The arguments of an invocation are expanded only where a parameter is plain. -/
private theorem spare_of_expandArguments {x y : Expander} {env : Expansion} {m : Macro}
    {args : List (List Token)} {given : List Argument}
    (h : x.expandArguments env m args = .ok given y) : spare m.plainParams given = given := by
  obtain ⟨hpre, -, -⟩ := Expander.preExpand_of_expandArguments h
  obtain ⟨later, hgiven, hlater⟩ := spare_of_preExpand hpre
  rw [hgiven]
  exact hlater

namespace Signature

variable {sig : Signature} {i : Nat}

/-- A macro accepts as many arguments as it has parameters. -/
private theorem accepts_length (sig : Signature) : sig.accepts sig.params.length = true := by
  unfold accepts
  split <;> simp

/-- If there are as many, none is added. -/
private theorem completeArguments_of_length {args : List Argument}
    (h : args.length = sig.params.length) : sig.completeArguments args = args := by
  unfold completeArguments
  rw [if_neg (by simp [h])]

/-- It does not matter whether the missing argument is added before or after. -/
private theorem completeArguments_spare (plain : List Bool) (args : List Argument) :
    sig.completeArguments (spare plain args) = spare plain (sig.completeArguments args) := by
  unfold completeArguments
  rw [length_spare]
  split
  · exact (spare_append_empty plain args).symm
  · rfl

private theorem length_plainParams (sig : Signature) (body : List Token) :
    (sig.plainParams body).length = sig.params.length := by
  simp [plainParams]

private theorem getElem?_plainParams {body : List Token} (h : i < sig.params.length) :
    (sig.plainParams body)[i]? = some (sig.occursPlainly i none body) := by
  simp [plainParams, h]

/-! ## Plain parameters and reads -/

/-- A parameter is no operator. -/
theorem isOneOf_of_isParam {t : Token} (h : sig.isParam t = true) (values : List String) :
    t.isOneOf values = false := by
  -- A parameter is a name, and no punctuator.
  have hname : t.isName = true := by
    unfold isParam index? at h
    split at h
    · assumption
    · cases h
  obtain hkind | hkind : t.kind = .identifier ∨ t.kind = .keyword := by
    simpa [Token.isName] using hname
  · simp [Token.isOneOf, hkind]
  · simp [Token.isOneOf, hkind]

/-- What occurs plainly after the operand that starts with `t` occurs plainly after `t`. -/
private theorem occursPlainly_after_operand {t : Token} {rest : List Token} (ht : t.isPaste = false)
    (hchain : rest.IsChain Apart)
    (h : ∀ prev : Option Token, (rest.drop (sig.operandExtra t rest.head?)).IsChain Apart →
      prev.any Token.isPaste = false →
      (prev.any Token.isHash = true →
        (rest.drop (sig.operandExtra t rest.head?)).head?.any sig.isParam = false) →
      sig.occursPlainly i prev (rest.drop (sig.operandExtra t rest.head?)) = true) :
    sig.occursPlainly i (some t) rest = true := by
  unfold operandExtra at h
  by_cases hstringize : sig.isStringize t rest.head? = true
  · rw [if_pos hstringize] at h
    cases rest with
    | nil => simp [isStringize] at hstringize
    | cons q rest =>
      -- The parameter that is stringized is the last token of the operand.
      have hq : sig.isParam q = true := (Bool.and_eq_true_iff.1 hstringize).2
      have hop := isOneOf_of_isParam hq
      refine occursPlainly_cons.2 (.inr (h (some q) hchain.tail (hop _) fun hhash => ?_))
      rw [Option.any_some, Token.isHash, hop] at hhash
      cases hhash
  · rw [if_neg hstringize] at h
    refine h (some t) hchain ht fun hhash => ?_
    rw [Option.any_some] at hhash
    simpa [isStringize, hhash] using hstringize

/-- Where pasting operators stand apart, only parameters that occur plainly are read. -/
theorem occursPlainly_of_mem_reads {started : Bool} (prev : Option Token) {body : List Token}
    (hhead : body.head?.any Token.isPaste = true → started = true) (hchain : body.IsChain Apart)
    (hpaste : prev.any Token.isPaste = false)
    (hhash : prev.any Token.isHash = true → body.head?.any sig.isParam = false)
    (h : i ∈ sig.reads started body) : sig.occursPlainly i prev body = true := by
  -- Between two operands the token before is no paste, and if it is a hash it has no parameter.
  fun_induction reads sig started body generalizing prev with
  | case1 => cases h
  -- An operator and its right operand are passed together.
  | case2 t ht r more ih =>
    have hr : r.isPaste = false := by
      have hapart := (List.isChain_cons_cons.1 hchain).1
      simpa [Apart, ht] using hapart
    refine occursPlainly_cons.2 (.inr (occursPlainly_cons.2 (.inr ?_)))
    refine occursPlainly_after_operand hr hchain.tail.tail fun prev hchain' hpaste' hhash' => ?_
    exact ih prev (fun _ => rfl) hchain' hpaste' hhash' h
  | case3 started t ht rest hends ih =>
    -- Only an operator at the end has no operand, and nothing is read after it.
    obtain rfl := hhead ht
    cases rest with
    | nil => simp [reads] at h
    | cons r more => exact (hends r more rfl rfl).elim
  -- The token is an operand, so it is not read itself.
  | case4 started t rest ht hoperand ih =>
    refine occursPlainly_cons.2 (.inr ?_)
    refine occursPlainly_after_operand (by simpa using ht) hchain.tail
      fun prev hchain' hpaste' hhash' => ?_
    exact ih prev (fun _ => rfl) hchain' hpaste' hhash' h
  | case5 started t rest ht hoperand ih =>
    simp only [Bool.or_eq_true, Bool.and_eq_true, not_or, not_and, Bool.not_eq_true] at hoperand
    obtain hhere | hlater := List.mem_append.1 h
    · -- The parameter is read here.
      have hindex : sig.index? t = some i := by simpa using hhere
      have hparam : sig.isParam t = true := by simp [isParam, hindex]
      refine occursPlainly_cons.2 (.inl ⟨hindex, hpaste, ?_, hoperand.2 hparam⟩)
      cases hprev : prev.any Token.isHash with
      | false => rfl
      | true =>
        have hnot := hhash hprev
        rw [List.head?_cons, Option.any_some, hparam] at hnot
        cases hnot
    · -- It is read later on.
      refine occursPlainly_cons.2 (.inr (ih (some t) (fun _ => rfl) hchain.tail ?_ ?_ hlater))
      · simpa using ht
      · intro hhash'
        rw [Option.any_some] at hhash'
        simpa [isStringize, hhash'] using hoperand.1

/-- If pasting constants makes neither a parameter nor a pasting operator, only parameters that
occur plainly before it are read after it. -/
private theorem occursPlainly_of_pasteConstants {body : List Token} (hbody : Spaced body)
    (hmade : ∀ t ∈ pastedConstants (some sig) [] body, sig.isParam t = false ∧ t.isPaste = false)
    (h : i ∈ sig.reads false (pasteConstants (some sig) [] body).value) :
    sig.occursPlainly i none body = true := by
  obtain ⟨hspaced, hplain⟩ := pasteConstants_spec [] body hbody hmade
  refine hplain i (occursPlainly_of_mem_reads none (fun hpaste => ?_) hspaced.chain rfl nofun h)
  rw [hspaced.head] at hpaste
  cases hpaste

end Signature

namespace Macro

/-! ## Sparing arguments -/

/-- No replacement changes if the arguments of parameters that are not plain are left
unexpanded. -/
def SparesSafely (m : Macro) : Prop :=
  ∀ (args : List Argument) (site : Token) (count : Nat), m.accepts args.length = true →
    (m.replacement? (spare m.plainParams args) site count).value =
      (m.replacement? args site count).value

variable {name : String} {sig : Signature} {plain : List Bool} {body : List Token}

/-- Arguments can be left unexpanded if those that are read are not. -/
private theorem sparesSafely_function (h : ∀ i ∈ sig.reads false body, plain.getD i true = true) :
    (function name sig plain body).SparesSafely := by
  intro args site count _
  -- The arguments as written stay.
  have hraw : ∀ i : Nat, (spare plain (sig.completeArguments args))[i]?.map Argument.raw =
      (sig.completeArguments args)[i]?.map Argument.raw := by
    intro i
    rw [getElem?_spare, Option.map_map]
    congr 1
    funext a
    simp only [Function.comp]
    split <;> rfl
  -- So do the expanded ones that are read.
  have hread : ∀ i ∈ sig.reads false body, (spare plain (sig.completeArguments args))[i]? =
      (sig.completeArguments args)[i]? := by
    intro i hi
    rw [getElem?_spare, h i hi]
    simp
  have hsubstitute : sig.substitute name (spare plain (sig.completeArguments args)) [] body =
      sig.substitute name (sig.completeArguments args) [] body :=
    Signature.substitute_congr hraw name (fun _ => rfl) hread
  simp only [replacement?, plainParams, Signature.completeArguments_spare, hsubstitute]

/-- Arguments without tokens, but for argument `i`, which expands to `t`. -/
def probe (count i : Nat) (t : Token) : List Argument :=
  (List.range count).map fun j => ⟨[], if j = i then [t] else []⟩

private theorem getElem?_probe {count i : Nat} (h : i < count) (t : Token) :
    (probe count i t)[i]? = some ⟨[], [t]⟩ := by
  simp [probe, h]

/-- If its parameter is not plain, no argument is left that expands to anything. -/
private theorem spare_probe {i : Nat} (h : plain.getD i true = false) (count : Nat) (t : Token) :
    spare plain (probe count i t) = unexpanded (probe count i t) := by
  refine List.ext_getElem? fun j => ?_
  rw [getElem?_spare, unexpanded, List.getElem?_map]
  -- Only the argument in question has something to lose.
  by_cases hj : j = i
  · rw [hj, h]
    rfl
  · rw [probe, List.getElem?_map]
    by_cases hlt : j < count
    · simp [hlt, hj]
    · simp [hlt]

/-- What is read shows: an argument that expands to one token makes the replacement longer. -/
private theorem SparesSafely.plain_of_mem_reads (h : (function name sig plain body).SparesSafely)
    {i : Nat} (hi : i ∈ sig.reads false body) : plain.getD i true = true := by
  have hlt := Signature.lt_of_mem_reads hi
  cases hplain : plain.getD i true with
  | true => rfl
  | false =>
    -- Sparing takes away the only token that any of these arguments expands to.
    let t : Token := { kind := .number, value := "0", file := "", line := 0, col := 0 }
    let args := probe sig.params.length i t
    have hlength : args.length = sig.params.length := by simp [args, probe]
    have haccepts : (function name sig plain body).accepts args.length = true := by
      rw [hlength]
      exact sig.accepts_length
    -- So the two replacements would have the same length.
    have hsame := h args t 0 haccepts
    obtain ⟨res, hres⟩ := Option.isSome_iff_exists.1
      (Signature.substitute_isSome (Nat.le_of_eq hlength.symm) name [] body)
    obtain ⟨res', hres', hcount⟩ :=
      Signature.tokenCount_substitute false [] (fun _ => ⟨rfl, rfl⟩) hres
    have hread : t ∈ sig.readTokens args false body := by
      refine List.mem_flatMap.2 ⟨i, hi, ?_⟩
      rw [getElem?_probe hlt]
      exact List.mem_singleton.2 rfl
    have hpos := List.length_pos_of_mem hread
    simp only [replacement?, plainParams, Signature.completeArguments_spare,
      Signature.completeArguments_of_length hlength, Noted.value_map] at hsame
    rw [spare_probe hplain, hres', hres] at hsame
    have htokens : tokenCount res' = tokenCount res := congrArg List.length (Option.some.inj hsame)
    omega

/-- Arguments can be left unexpanded just if all that is read belongs to plain parameters. -/
theorem sparesSafely_function_iff (hlength : plain.length = sig.params.length) :
    (function name sig plain body).SparesSafely ↔
      ∀ i ∈ sig.reads false body, plain[i]? = some true := by
  -- A parameter that is read is one of those that `plain` tells about.
  have hgetD : ∀ i ∈ sig.reads false body, plain.getD i true = true ↔ plain[i]? = some true := by
    intro i hi
    have hlt := Signature.lt_of_mem_reads hi
    rw [List.getD_eq_getElem?_getD, List.getElem?_eq_getElem (by omega)]
    simp
  constructor
  · intro h i hi
    exact (hgetD i hi).1 (h.plain_of_mem_reads hi)
  · intro h
    exact sparesSafely_function fun i hi => (hgetD i hi).2 (h i hi)

/-- Arguments can be left unexpanded if and only if every parameter whose expanded argument is read
has been found to be plain. So it is if pasting constants makes neither a parameter nor a pasting
operator. The arguments of an invocation are left unexpanded in this way. -/
theorem sparesSafely_iff (name : String) (params : List String) (body : List Token) :
    let sig := Signature.ofSpellings params
    let m := (ofFunction name params body).value
    (m.SparesSafely ↔ ∀ i ∈ sig.reads false m.body, m.plainParams[i]? = some true) ∧
    ((∀ t ∈ pastedConstants (some sig) [] (trimmedBody name body).value,
      sig.isParam t = false ∧ t.isPaste = false) → m.SparesSafely) ∧
    ∀ (x y : Expander) env args given,
      x.expandArguments env m args = .ok given y → spare m.plainParams given = given := by
  intro sig m
  have hsafe : m.SparesSafely ↔ ∀ i ∈ sig.reads false m.body, m.plainParams[i]? = some true :=
    sparesSafely_function_iff (sig.length_plainParams _)
  refine ⟨hsafe, ?_, fun x y env args given => spare_of_expandArguments⟩
  -- If joining makes no parameter, what is read is what the text shows.
  intro hmade
  refine hsafe.2 fun i hi => ?_
  have hplain := Signature.occursPlainly_of_pasteConstants (spaced_trimmedBody name body) hmade hi
  exact (Signature.getElem?_plainParams (Signature.lt_of_mem_reads hi)).trans (congrArg some hplain)

namespace Spared

/-- A definition in which parameters stand plainly and as operands of both operators, beside
constants that are pasted. -/
def mixed : List Token :=
  tokensOf "x a ## b ## 1 #y x ## y"

/-- Expansions with a macro `A` for two tokens. -/
def env : Expansion :=
  { macros := { macros := [.object "A" (tokensOf "1 2")] }
    maxDepth := 200
    maxTokens := 1000000 }

/-- The texts of two arguments `A` as they are expanded for an invocation of `m`. -/
def given? (m : Macro) : Option (List (List String)) :=
  match Expander.expandArguments {} env m [tokensOf "A", tokensOf "A"] with
  | .ok given _ => some (given.map fun a => a.expanded.map (·.value))
  | .error _ _ => none

end Spared

open Spared in
/-- Here pasting makes `ab1`, and of two arguments only the first is expanded. -/
theorem sparesSafely_iff_ab1 :
    let sig := Signature.ofSpellings ["x", "y"]
    let m := (ofFunction "f" ["x", "y"] mixed).value
    (∀ t ∈ pastedConstants (some sig) [] (trimmedBody "f" mixed).value,
      sig.isParam t = false ∧ t.isPaste = false) ∧
    m.plainParams = [true, false] ∧ sig.reads false m.body = [0] ∧ m.SparesSafely ∧
    ∃ given y, Expander.expandArguments {} env m [tokensOf "A", tokensOf "A"] = .ok given y ∧
      given.map (fun a => a.expanded.map (·.value)) = [["1", "2"], []] ∧
      spare m.plainParams given = given := by
  intro sig m
  have hmade : ∀ t ∈ pastedConstants (some sig) [] (trimmedBody "f" mixed).value,
      sig.isParam t = false ∧ t.isPaste = false := by
    decide +kernel
  have hreads : m.plainParams = [true, false] ∧ sig.reads false m.body = [0] := by decide +kernel
  -- Only the first argument has been expanded.
  have hgiven : given? m = some [["1", "2"], []] := by decide +kernel
  obtain ⟨-, hsafe, hspare⟩ := sparesSafely_iff "f" ["x", "y"] mixed
  refine ⟨hmade, hreads.1, hreads.2, hsafe hmade, ?_⟩
  unfold given? at hgiven
  split at hgiven
  · rename_i given y hexpand
    exact ⟨given, y, hexpand, Option.some.inj hgiven, hspare {} y env _ given hexpand⟩
  · cases hgiven

open Spared in
/-- Pasting `a ## b` makes the parameter `ab`; pasting `# ## #` makes an operator that is dropped,
and leaves `x` by itself. Both are read, and have not been found to be plain. -/
theorem not_sparesSafely_pasted :
    ¬(ofFunction "f" ["ab"] (tokensOf "a ## b")).value.SparesSafely ∧
    ¬(ofFunction "f" ["x"] (tokensOf "# ## # ## x")).value.SparesSafely := by
  constructor
  · -- Joining makes a parameter,
    intro h
    have hsame := h [⟨tokensOf "1", tokensOf "1"⟩] (.word "f") 0 (by decide +kernel)
    revert hsame
    decide +kernel
  · -- or a pasting operator.
    intro h
    have hsame := h [⟨tokensOf "1", tokensOf "1"⟩] (.word "f") 0 (by decide +kernel)
    revert hsame
    decide +kernel

end Macro

end Preproc
