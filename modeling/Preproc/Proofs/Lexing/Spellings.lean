import Mathlib.Data.List.Basic
import Preproc.Proofs.Lexing.Gaps

/-!
# Spellings

A token reaches as far as it can, so whether a text is read as one token depends on what follows it.
`Spelled k cs` says what the tokens of each kind look like on their own, and `sticks k cs rest` when
the text `rest` behind such a token becomes part of it, or makes another token of it.

Raw strings are left out: how far they reach is up to their delimiter.

## Key results

- `numberTail_append`: how far a number reaches into what follows it
- `closingQuote?_append`: a literal ends where it is closed, whatever follows
- `openingQuote?_append`: an encoding and a quote open a literal, in one way only
-/

namespace Preproc

/-! ## Spellings -/

/-- The kind of a name. -/
def nameKind (cs : List Char) : Kind :=
  if keywords.contains (String.ofList cs) then .keyword else .identifier

/-- The kind of a literal between the quotes `quote`. -/
def quoteKind (quote : Char) : Kind :=
  if quote = '"' then .string else .character

/-- The text `cs` is a token of kind `k`, by itself and not as a raw string. -/
inductive Spelled : Kind → List Char → Prop
  | name {k : Kind} {cs : List Char} (kind : k = nameKind cs) (solid : cs ≠ [])
      (digit : cs.head?.any Text.isDigit = false) (chars : ∀ c ∈ cs, isNameChar c = true) :
      Spelled k cs
  | number {d : Char} {cs : List Char} (digit : Text.isDigit d = true)
      (tail : numberTail cs = cs.length) : Spelled .number (d :: cs)
  | fraction {d : Char} {cs : List Char} (digit : Text.isDigit d = true)
      (tail : numberTail cs = cs.length) : Spelled .number ('.' :: d :: cs)
  | literal {k : Kind} {encoding : String} {quote : Char} {body : List Char}
      (kind : k = quoteKind quote) (known : encoding ∈ encodings) (quotes : quote ∈ ['"', '\''])
      (closed : closingQuote? quote body = some body.length) :
      Spelled k (encoding.toList ++ quote :: body)
  | punctuator {cs : List Char} (known : cs ∈ punctuatorTexts) : Spelled .punctuator cs

/-! ## Sticking -/

/-- Whether a name sticks to what follows it: to what continues the name, or to a quote if the name
is an encoding. -/
def nameSticks (cs rest : List Char) : Bool :=
  rest.head?.any isNameChar ||
    (encodings.contains (String.ofList cs) && rest.head?.any (['"', '\''].contains ·)) ||
    (rawEncodings.contains (String.ofList cs) && rest.head?.any (['"'].contains ·))

/-- Whether a number ends in an exponent mark that may be followed by a sign. After a single quote
the mark is a digit. -/
def endsInExponent (cs : List Char) : Bool :=
  cs.getLast?.any (isExponent · '+') && cs.dropLast.getLast? ≠ some '\''

/-- Whether a text starts with a sign. -/
def startsWithSign (cs : List Char) : Bool :=
  cs.head? = some '+' || cs.head? = some '-'

/-- Whether a number sticks to what follows it: to what continues a number, or to the sign of its
exponent. -/
def numberSticks (cs rest : List Char) : Bool :=
  numberTail rest ≠ 0 || (endsInExponent cs && startsWithSign rest)

/-- Whether a punctuator sticks to what follows it: a slash to what makes it a comment, a period to
a digit, and any to what makes it a longer punctuator. -/
def punctuatorSticks (cs rest : List Char) : Bool :=
  (cs = ['/'] && rest.head?.any (['/', '*'].contains ·)) ||
    (cs = ['.'] && rest.head?.any Text.isDigit) ||
    if splitsAngle (cs ++ rest) then cs ≠ ['<']
    else punctuatorTexts.any fun p => cs.length < p.length && p.isPrefixOf (cs ++ rest)

/-- Whether a token of kind `k` sticks to what follows it. Literals end where they are closed. -/
def sticks (k : Kind) (cs rest : List Char) : Bool :=
  match k with
  | .identifier | .keyword => nameSticks cs rest
  | .number => numberSticks cs rest
  | .punctuator => punctuatorSticks cs rest
  | .string | .character | .unknown | .eof => false

/-! ## Numbers -/

theorem isExponent_eq (c d : Char) :
    isExponent c d = (isExponent c '+' && (d = '+' || d = '-')) := by
  simp [isExponent]

/-- A character before the end of a number does not matter to how it ends, unless it is a quote. -/
theorem endsInExponent_cons {c : Char} {cs : List Char}
    (hmark : isExponent c '+' = false ∨ cs ≠ []) (hquote : c ≠ '\'') :
    endsInExponent (c :: cs) = endsInExponent cs := by
  match cs with
  | [] => simp [endsInExponent, hmark.resolve_right (by simp)]
  | [d] => simp [endsInExponent, hquote]
  | d :: e :: cs => simp [endsInExponent]

/-- The quote that separates digits is no digit. -/
private theorem numberChar_ne_quote {c : Char} (h : isNumberChar c = true) : c ≠ '\'' := by
  rintro rfl
  revert h
  decide

/-- Two characters that are read together do not matter to how the number ends. -/
theorem endsInExponent_cons_cons {c d : Char} (hd : isExponent d '+' = false ∨ c = '\'')
    (hquote : d ≠ '\'') (cs : List Char) :
    endsInExponent (c :: d :: cs) = endsInExponent cs := by
  match cs with
  | [] => rcases hd with hd | hd <;> simp [endsInExponent, hd]
  | [e] => simp [endsInExponent, hquote]
  | e :: f :: cs => simp [endsInExponent]

theorem startsWithSign_cons (d : Char) (cs : List Char) :
    startsWithSign (d :: cs) = (d = '+' || d = '-') := by
  simp [startsWithSign]

/-- A number that is complete in itself goes on with what continues a number, or with the sign of
its exponent. -/
theorem numberTail_append {cs : List Char} (h : numberTail cs = cs.length) (rest : List Char) :
    numberTail (cs ++ rest) = cs.length +
      if endsInExponent cs && startsWithSign rest then 1 + numberTail rest.tail
      else numberTail rest := by
  fun_induction numberTail cs with
  | case1 => simp [endsInExponent]
  | case2 c hc =>
    -- Here it is decided whether a mark has a sign.
    cases rest with
    | nil => simp [numberTail, hc, startsWithSign]
    | cons d rest =>
      simp only [List.cons_append, List.nil_append, numberTail, hc, if_true, endsInExponent,
        startsWithSign_cons, isExponent_eq c d, List.length_singleton, List.tail_cons,
        List.getLast?_singleton, Option.any_some, List.dropLast_singleton, List.getLast?_nil]
      simp only [reduceCtorEq, ne_eq, not_false_eq_true, decide_true, Bool.and_true]
      split
      · omega
      · rfl
  | case3 c hc => simp at h
  | case4 c d cs hexponent ih =>
    -- A mark with its sign: the sign is no mark, so the rest ends in one just if all does.
    have hlength : numberTail cs = cs.length := by
      simp only [List.length_cons] at h
      omega
    have hsign : d = '+' ∨ d = '-' := by
      rw [isExponent_eq] at hexponent
      simpa using (Bool.and_eq_true_iff.1 hexponent).2
    have hmark : isExponent d '+' = false ∧ d ≠ '\'' := by
      rcases hsign with rfl | rfl <;> decide
    rw [endsInExponent_cons_cons (.inl hmark.1) hmark.2]
    simp only [List.cons_append, numberTail, hexponent, if_true, ih hlength, List.length_cons]
    omega
  -- A character by itself, which leaves all to those that follow.
  | case5 c d cs hexponent hc ih =>
    have hlength : numberTail (d :: cs) = (d :: cs).length := by
      simp only [List.length_cons] at h ⊢
      omega
    rw [endsInExponent_cons (.inr (by simp)) (numberChar_ne_quote hc)]
    have hrest := ih hlength
    simp only [List.cons_append, List.length_cons] at hrest ⊢
    simp only [numberTail, hexponent, hc, if_true, Bool.false_eq_true, if_false, hrest]
    omega
  -- A quote and the digit it separates.
  | case6 c d cs hexponent hc hquote ih =>
    have hlength : numberTail cs = cs.length := by
      simp only [List.length_cons] at h
      omega
    obtain ⟨hc', hd⟩ := Bool.and_eq_true_iff.1 hquote
    have hd' : d ≠ '\'' := by
      rintro rfl
      revert hd
      decide
    rw [endsInExponent_cons_cons (.inr (by simpa using hc')) hd']
    simp only [List.cons_append, numberTail, hexponent, hc, hquote, if_true, Bool.false_eq_true,
      if_false, ih hlength, List.length_cons]
    omega
  | case7 c d cs hexponent hc hquote =>
    simp at h

/-- What a number takes of a text is there, and it would take it by itself. -/
theorem numberTail_take (cs : List Char) :
    numberTail cs ≤ cs.length ∧ numberTail (cs.take (numberTail cs)) = numberTail cs := by
  fun_induction numberTail cs with
  | case1 => simp [numberTail]
  | case2 c hc => simp [numberTail, hc]
  | case3 c hc => simp [numberTail]
  -- Two characters are taken together, and are still both there.
  | case4 c d cs hexponent ih =>
    rw [Nat.add_comm 2]
    simp only [List.length_cons, List.take_succ_cons, numberTail, hexponent, if_true]
    omega
  | case5 c d cs hexponent hc ih =>
    obtain ⟨hle, htake⟩ := ih
    rw [Nat.add_comm 1]
    simp only [List.length_cons, List.take_succ_cons] at hle ⊢
    refine ⟨by omega, ?_⟩
    -- If nothing more is taken, `c` stands alone; otherwise `d` follows it, as in the text.
    cases hn : numberTail (d :: cs) with
    | zero => simp [numberTail, hc]
    | succ n =>
      rw [hn, List.take_succ_cons] at htake
      simp only [List.take_succ_cons, numberTail, hexponent, hc, if_true, Bool.false_eq_true,
        if_false, htake]
      omega
  | case6 c d cs hexponent hc hquote ih =>
    rw [Nat.add_comm 2]
    simp only [List.length_cons, List.take_succ_cons, numberTail, hexponent, hc, hquote, if_true,
      Bool.false_eq_true, if_false]
    omega
  | case7 => simp [numberTail]

/-- A text after which a number goes on no further: it is complete in itself, and does not stick to
what follows. -/
theorem numberTail_append_eq_length_iff {cs rest : List Char} (h : numberTail cs = cs.length) :
    numberTail (cs ++ rest) = cs.length ↔
      numberTail rest = 0 ∧ (endsInExponent cs && startsWithSign rest) = false := by
  rw [numberTail_append h]
  -- A sign goes on with a number behind an exponent.
  cases hsign : endsInExponent cs && startsWithSign rest with
  | true =>
    simp only [if_true, Bool.true_eq_false, and_false, iff_false]
    omega
  | false =>
    simp only [Bool.false_eq_true, if_false, and_true]
    omega

/-! ## Literals -/

/-- A character that escapes nothing closes the literal, ends the line, or is passed. -/
theorem closingQuote?_cons {quote c : Char} (hc : c ≠ '\\') (cs : List Char) :
    closingQuote? quote (c :: cs) =
      if c = quote then some 1
      else if c = '\n' then none
      else (closingQuote? quote cs).map (1 + ·) := by
  rw [closingQuote?]
  · intro h
    exact absurd h hc
  · intro d ds h
    exact absurd h hc

/-- A character that neither ends the text as a backslash nor escapes another is no backslash. -/
private theorem ne_backslash {c : Char} {cs : List Char} (hnone : c = '\\' → cs = [] → False)
    (hmore : ∀ d ds, c = '\\' → cs = d :: ds → False) : c ≠ '\\' := by
  intro heq
  cases cs with
  | nil => exact hnone heq rfl
  | cons d ds => exact hmore d ds heq rfl

/-- What a literal takes of a text is there, and it would take it before any other text. -/
theorem closingQuote?_append {quote : Char} {cs : List Char} {n : Nat}
    (h : closingQuote? quote cs = some n) (rest : List Char) :
    n ≤ cs.length ∧ closingQuote? quote (cs.take n ++ rest) = some n := by
  fun_induction closingQuote? quote cs generalizing n with
  | case1 => cases h
  | case2 => cases h
  | case3 => cases h
  | case4 c cs hc ih =>
    -- A backslash and the character it escapes.
    obtain ⟨m, hm, rfl⟩ := Option.map_eq_some_iff.1 h
    obtain ⟨hle, happend⟩ := ih hm
    rw [Nat.add_comm 2]
    simp only [List.length_cons, List.take_succ_cons, List.cons_append, closingQuote?, hc, if_false,
      happend, Option.map_some, Option.some.injEq]
    omega
  -- The quote closes the literal, so nothing that follows matters.
  | case5 cs hnone hmore =>
    obtain rfl := Option.some.inj h
    simp [closingQuote?_cons (ne_backslash hnone hmore)]
  | case6 => cases h
  | case7 c cs hnone hmore hquote hnewline ih =>
    obtain ⟨m, hm, rfl⟩ := Option.map_eq_some_iff.1 h
    obtain ⟨hle, happend⟩ := ih hm
    rw [Nat.add_comm 1]
    simp only [List.length_cons, List.take_succ_cons, List.cons_append,
      closingQuote?_cons (ne_backslash hnone hmore), hquote, hnewline, if_false, happend,
      Option.map_some, Option.some.injEq]
    omega

/-- No encoding holds a quote. -/
theorem quote_notMem_encoding {e : String} {quote : Char} (he : e ∈ encodings ++ rawEncodings)
    (hquote : quote ∈ ['"', '\'']) : quote ∉ e.toList := by
  have hall : ∀ e ∈ encodings ++ rawEncodings, '"' ∉ e.toList ∧ '\'' ∉ e.toList := by decide
  simp only [List.mem_cons, List.not_mem_nil, or_false] at hquote
  rcases hquote with rfl | rfl
  · exact (hall e he).1
  · exact (hall e he).2

/-- What precedes the first quote of a text is one encoding only. -/
theorem encoding_unique {e e' : String} {quote quote' : Char} {rest rest' : List Char}
    (he : e ∈ encodings ++ rawEncodings) (he' : e' ∈ encodings ++ rawEncodings)
    (hquote : quote ∈ ['"', '\'']) (hquote' : quote' ∈ ['"', '\''])
    (h : e.toList ++ quote :: rest = e'.toList ++ quote' :: rest') :
    e = e' ∧ quote = quote' ∧ rest = rest' := by
  -- An encoding is what stands before the first quote.
  have hbefore : ∀ {e : String} {q : Char} {cs : List Char}, e ∈ encodings ++ rawEncodings →
      q ∈ ['"', '\''] →
      (e.toList ++ q :: cs).takeWhile (fun c => !(['"', '\''].contains c)) = e.toList := by
    intro e q cs he hq
    have hfree : ∀ c ∈ e.toList, (!(['"', '\''].contains c)) = true := by
      intro c hc
      by_cases hin : c ∈ ['"', '\'']
      · exact absurd hc (quote_notMem_encoding he hin)
      · simpa using hin
    have hstop : (!(['"', '\''].contains q)) = false := by
      rw [List.contains_iff_mem.2 hq]
      rfl
    rw [List.takeWhile_append_of_pos hfree, List.takeWhile_cons, hstop]
    simp
  have hsame : e.toList = e'.toList := by
    rw [← hbefore he hquote, h, hbefore he' hquote']
  rw [hsame, List.append_cancel_left_eq, List.cons.injEq] at h
  exact ⟨String.toList_inj.1 hsame, h⟩

/-- A literal starts with a quote or with the first letter of an encoding. -/
theorem literal_head {e : String} {quote : Char} (he : e ∈ encodings ++ rawEncodings)
    (hquote : quote ∈ ['"', '\'']) (body : List Char) :
    ∃ c rest, e.toList ++ quote :: body = c :: rest ∧ c ∈ ['u', 'U', 'L', 'R', '"', '\''] := by
  -- Encodings start with one of four letters.
  have hfirst : ∀ e ∈ encodings ++ rawEncodings,
      e.toList.head?.all (fun c => decide (c ∈ ['u', 'U', 'L', 'R', '"', '\''])) = true := by decide
  cases hchars : e.toList with
  | nil => exact ⟨quote, body, rfl, List.mem_append_right ['u', 'U', 'L', 'R'] hquote⟩
  | cons c cs =>
    have hc := hfirst e he
    rw [hchars] at hc
    exact ⟨c, cs ++ quote :: body, rfl, of_decide_eq_true hc⟩

/-- Where a literal is opened there is an encoding before a quote. -/
theorem openingQuote?_eq_some {encs : List String} {quotes : List Char} {cs rest : List Char}
    {n : Nat} {quote : Char} (h : openingQuote? encs quotes cs = some (n, quote, rest)) :
    ∃ e ∈ encs, cs = e.toList ++ quote :: rest ∧ quote ∈ quotes ∧ n = e.length := by
  obtain ⟨e, he, hsome⟩ := List.exists_of_findSome?_eq_some h
  refine ⟨e, he, ?_⟩
  split at hsome
  · rename_i q after hstart
    split at hsome
    · -- The encoding is followed by one of the quotes.
      rename_i hq
      simp only [Option.some.injEq, Prod.mk.injEq] at hsome
      obtain ⟨rfl, rfl, rfl⟩ := hsome
      exact ⟨(List.isPrefixOf?_eq_some_iff_append_eq.1 hstart).symm, by simpa using hq, rfl⟩
    · cases hsome
  · cases hsome

/-- An encoding and a quote open a literal. -/
theorem openingQuote?_append {encs : List String} {quotes : List Char}
    (hencs : encs ⊆ encodings ++ rawEncodings) (hquotes : quotes ⊆ ['"', '\'']) {e : String}
    (he : e ∈ encs) {quote : Char} (hquote : quote ∈ quotes) (rest : List Char) :
    openingQuote? encs quotes (e.toList ++ quote :: rest) = some (e.length, quote, rest) := by
  cases h : openingQuote? encs quotes (e.toList ++ quote :: rest) with
  | none =>
    have hnone := List.findSome?_eq_none_iff.1 h e he
    rw [List.isPrefixOf?_eq_some_iff_append_eq.2 rfl] at hnone
    simp [hquote] at hnone
  | some found =>
    obtain ⟨n, quote', rest'⟩ := found
    -- Another encoding may be found first, but there is no other.
    obtain ⟨e', he', heq, hquote', rfl⟩ := openingQuote?_eq_some h
    obtain ⟨rfl, rfl, rfl⟩ :=
      encoding_unique (hencs he) (hencs he') (hquotes hquote) (hquotes hquote') heq
    rfl

/-- Nothing is opened where there is no encoding before a quote. -/
theorem openingQuote?_eq_none {encs : List String} {quotes : List Char} {cs : List Char}
    (h : ∀ e ∈ encs, ∀ quote ∈ quotes, ∀ rest, cs ≠ e.toList ++ quote :: rest) :
    openingQuote? encs quotes cs = none := by
  cases hopen : openingQuote? encs quotes cs with
  | none => rfl
  | some found =>
    obtain ⟨n, quote, rest⟩ := found
    obtain ⟨e, he, hcs, hquote, -⟩ := openingQuote?_eq_some hopen
    exact absurd hcs (h e he quote hquote rest)

/-! ## The characters of spellings -/

/-- Whether a character is no blank. -/
def isSolid (c : Char) : Bool :=
  !(isSpace c || c = '\n')

/-- No digit starts a literal, a fraction or a gap, and none marks an exponent. -/
theorem digit_notMem {d : Char} (h : Text.isDigit d = true) :
    d ∉ ['u', 'U', 'L', 'R', '"', '\'', '.', '/', ' ', '\t', '\x0b', '\x0c', '\n', 'e', 'E', 'p',
      'P'] := by
  intro hmem
  have hall : ['u', 'U', 'L', 'R', '"', '\'', '.', '/', ' ', '\t', '\x0b', '\x0c', '\n', 'e', 'E',
      'p', 'P'].any Text.isDigit = false := by decide
  exact List.any_eq_false.1 hall d hmem h

/-- A digit before the end of a number does not matter to how it ends. -/
theorem endsInExponent_digit {d : Char} (h : Text.isDigit d = true) (cs : List Char) :
    endsInExponent (d :: cs) = endsInExponent cs := by
  have hnot := digit_notMem h
  apply endsInExponent_cons
  · left
    simp_all [isExponent]
  · rintro rfl
    simp at hnot

/-- What the first characters of the punctuators are not. -/
theorem punctuator_head {p : List Char} (hp : p ∈ punctuatorTexts) :
    ∃ c cs, p = c :: cs ∧ c ∉ ['u', 'U', 'L', 'R', '"', '\''] ∧ Text.isDigit c = false ∧
      isNameChar c = false ∧ isSolid c = true := by
  have hall : ∀ p ∈ punctuatorTexts, p.head?.all (fun c =>
      decide (c ∉ ['u', 'U', 'L', 'R', '"', '\''] ∧ Text.isDigit c = false ∧
        isNameChar c = false ∧ isSolid c = true)) = true := by decide
  have hsolid : [] ∉ punctuatorTexts := by decide
  cases p with
  | nil => exact absurd hp hsolid
  | cons c cs => exact ⟨c, cs, rfl, of_decide_eq_true (hall _ hp)⟩

/-- The characters that a number may hold. -/
theorem numberTail_chars {cs : List Char} (h : numberTail cs = cs.length) :
    ∀ c ∈ cs, isNumberChar c = true ∨ c ∈ ['+', '-', '\''] := by
  fun_induction numberTail cs with
  | case1 => simp
  | case2 c hc => simp [hc]
  | case3 c hc => simp at h
  | case4 c d cs hexponent ih =>
    have hlength : numberTail cs = cs.length := by
      simp only [List.length_cons] at h
      omega
    have hmark : isNumberChar c = true := by
      simp only [isExponent, Bool.and_eq_true, Bool.or_eq_true, decide_eq_true_eq] at hexponent
      rcases hexponent.1 with ((rfl | rfl) | rfl) | rfl <;> decide
    -- Only here a sign is taken.
    have hsign : d ∈ ['+', '-', '\''] := by
      simp only [isExponent, Bool.and_eq_true, Bool.or_eq_true, decide_eq_true_eq] at hexponent
      rcases hexponent.2 with rfl | rfl <;> decide
    intro x hx
    simp only [List.mem_cons] at hx
    rcases hx with rfl | rfl | hx
    · exact .inl hmark
    · exact .inr hsign
    · exact ih hlength x hx
  | case5 c d cs hexponent hc ih =>
    have hlength : numberTail (d :: cs) = (d :: cs).length := by
      simp only [List.length_cons] at h ⊢
      omega
    intro x hx
    cases List.mem_cons.1 hx with
    | inl heq => exact .inl (heq ▸ hc)
    | inr hmem => exact ih hlength x hmem
  | case6 c d cs hexponent hc hquote ih =>
    have hlength : numberTail cs = cs.length := by
      simp only [List.length_cons] at h
      omega
    simp only [Bool.and_eq_true, decide_eq_true_eq] at hquote
    intro x hx
    simp only [List.mem_cons] at hx
    rcases hx with rfl | rfl | hx
    · exact .inr (by simp [hquote.1])
    · exact .inl (by simp [isNumberChar, hquote.2])
    · exact ih hlength x hx
  | case7 => simp at h

/-- A literal ends with its quote, and on the line on which it starts. -/
theorem closingQuote?_chars {quote : Char} {cs : List Char} (hquote : quote ≠ '\n')
    (h : closingQuote? quote cs = some cs.length) : '\n' ∉ cs ∧ cs.getLast? = some quote := by
  fun_induction closingQuote? quote cs with
  | case1 => cases h
  | case2 => cases h
  | case3 => cases h
  | case4 c cs hc ih =>
    obtain ⟨m, hm, hlength⟩ := Option.map_eq_some_iff.1 h
    have hrest : m = cs.length := by
      simp only [List.length_cons] at hlength
      omega
    obtain ⟨hnewline, hlast⟩ := ih (by rw [hm, hrest])
    simp [hnewline, Ne.symm hc, List.getLast?_cons, hlast]
  | case5 cs hnone hmore =>
    -- The closing quote is the last character.
    obtain rfl : cs = [] := by simpa using h
    simpa using hquote.symm
  | case6 => cases h
  | case7 c cs hnone hmore hother hc ih =>
    obtain ⟨m, hm, hlength⟩ := Option.map_eq_some_iff.1 h
    have hrest : m = cs.length := by
      simp only [List.length_cons] at hlength
      omega
    obtain ⟨hnewline, hlast⟩ := ih (by rw [hm, hrest])
    simp [hnewline, Ne.symm hc, List.getLast?_cons, hlast]

/-- The characters of a class that holds no blank and no slash are no blanks and no slashes. -/
private theorem solid_of_class (p : Char → Bool)
    (h : ['/', ' ', '\t', '\x0b', '\x0c', '\n'].any p = false) {c : Char} (hc : p c = true) :
    isSolid c = true ∧ c ≠ '/' := by
  have hnot : c ∉ ['/', ' ', '\t', '\x0b', '\x0c', '\n'] := fun hmem =>
    List.any_eq_false.1 h c hmem hc
  simp_all [isSolid, isSpace]

namespace Spelled

variable {k : Kind} {cs : List Char}

/-- A spelling starts with no blank, and with a slash only if it is a punctuator. -/
theorem head (h : Spelled k cs) :
    ∃ c rest, cs = c :: rest ∧ isSolid c = true ∧
      (c = '/' → k = .punctuator ∧ (rest = [] ∨ rest = ['='])) := by
  cases h with
  | name kind solid digit chars =>
    obtain ⟨c, rest, rfl⟩ := List.exists_cons_of_ne_nil solid
    obtain ⟨hsolid, hslash⟩ := solid_of_class isNameChar (by decide) (chars c (by simp))
    exact ⟨c, rest, rfl, hsolid, fun h => absurd h hslash⟩
  | number digit tail =>
    obtain ⟨hsolid, hslash⟩ := solid_of_class Text.isDigit (by decide) digit
    exact ⟨_, _, rfl, hsolid, fun h => absurd h hslash⟩
  | fraction digit tail => exact ⟨'.', _, rfl, by decide, by simp⟩
  | literal kind known quotes closed =>
    obtain ⟨c, rest, hcs, hc⟩ := literal_head (List.mem_append_left _ known) quotes _
    obtain ⟨hsolid, hslash⟩ := solid_of_class (['u', 'U', 'L', 'R', '"', '\''].contains ·)
      (by decide) (List.contains_iff_mem.2 hc)
    exact ⟨c, rest, hcs, hsolid, fun h => absurd h hslash⟩
  | punctuator known =>
    obtain ⟨c, rest, rfl, -, -, -, hsolid⟩ := punctuator_head known
    refine ⟨c, rest, rfl, hsolid, ?_⟩
    rintro rfl
    -- Only two punctuators start with a slash.
    have hall : ∀ p ∈ punctuatorTexts, p.head? = some '/' → p.tail = [] ∨ p.tail = ['='] := by
      decide
    exact ⟨rfl, hall _ known rfl⟩

/-- The characters of a number. -/
theorem notMem_of_number {c d : Char} {cs : List Char} (hd : Text.isDigit d = true)
    (htail : numberTail cs = cs.length) (hc : c ∈ ['\r', '\n', '\\', '"']) : c ∉ d :: cs := by
  -- None of these can stand in a number.
  have hdigit : ['\r', '\n', '\\', '"'].any Text.isDigit = false := by decide
  have hnumber : ['\r', '\n', '\\', '"'].any isNumberChar = false := by decide
  have hsign : ['\r', '\n', '\\', '"'].any (['+', '-', '\''].contains ·) = false := by decide
  rw [List.mem_cons, not_or]
  constructor
  · rintro rfl
    exact List.any_eq_false.1 hdigit c hc hd
  · intro hmem
    cases numberTail_chars htail c hmem with
    | inl h => exact List.any_eq_false.1 hnumber c hc h
    | inr h => exact List.any_eq_false.1 hsign c hc (List.contains_iff_mem.2 h)

/-- A spelling stays on its line, and does not end in a backslash. -/
theorem smooth (h : Spelled k cs) : '\n' ∉ cs ∧ cs.getLast? ≠ some '\\' := by
  -- It is enough that neither character occurs at all.
  have hplain : ∀ {cs : List Char}, (∀ c ∈ ['\n', '\\'], c ∉ cs) →
      '\n' ∉ cs ∧ cs.getLast? ≠ some '\\' := by
    intro cs hcs
    refine ⟨hcs _ (by simp), fun hlast => hcs '\\' (by simp) ?_⟩
    exact List.mem_of_getLast? hlast
  have hwide : ∀ {c : Char}, c ∈ ['\n', '\\'] → c ∈ ['\r', '\n', '\\', '"'] :=
    fun hc => List.mem_cons_of_mem _ (List.mem_append_left ['"'] hc)
  cases h with
  | name kind solid digit chars =>
    apply hplain
    intro c hc hmem
    have hno : ['\n', '\\'].any isNameChar = false := by decide
    exact List.any_eq_false.1 hno c hc (chars c hmem)
  | number digit tail =>
    apply hplain
    intro c hc
    exact notMem_of_number digit tail (hwide hc)
  | fraction digit tail =>
    apply hplain
    intro c hc
    have hpoint : c ≠ '.' := by
      rintro rfl
      simp at hc
    rw [List.mem_cons, not_or]
    exact ⟨hpoint, notMem_of_number digit tail (hwide hc)⟩
  -- A literal may hold backslashes, but its last character is the quote.
  | literal kind known quotes closed =>
    rename_i e quote body
    have hquote : quote ≠ '\n' ∧ quote ≠ '\\' := by
      simp only [List.mem_cons, List.not_mem_nil, or_false] at quotes
      rcases quotes with rfl | rfl <;> decide
    have hencoding : ∀ e ∈ encodings, '\n' ∉ e.toList := by decide
    obtain ⟨hnewline, hlast⟩ := closingQuote?_chars hquote.1 closed
    simp [hencoding e known, hnewline, hlast, hquote, Ne.symm hquote.1, List.getLast?_append,
      List.getLast?_cons]
  | punctuator known =>
    have hall : ∀ p ∈ punctuatorTexts, '\n' ∉ p ∧ p.getLast? ≠ some '\\' := by decide
    exact hall _ known

end Spelled

end Preproc
