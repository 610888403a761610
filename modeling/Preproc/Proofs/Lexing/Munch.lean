import Preproc.Proofs.Lexing.Spellings

/-!
# Maximal munch

A scanner takes the longest token that a text starts with. Spellings and sticking are said without
the scanners; here they are shown to agree: a spelling that does not stick to what follows is read
as it is, and what is read is such a spelling.

## Key results

- `scanned_of_lexemeAt`: which scanner has found a token
- `lexemeAt_append`: a spelling is read as it is, unless it sticks to what follows
- `spells_lexemeAt`: what is read is a spelling, and does not stick to what follows
-/

namespace Preproc

/-! ## The order of the scanners -/

/-- No literal, raw or not, starts here. -/
def Unquoted (cs : List Char) : Prop :=
  openingQuote? rawEncodings ['"'] cs = none ∧ openingQuote? encodings ['"', '\''] cs = none

private theorem lexemeAt_of_literal {cs : List Char} {x : Lexeme}
    (hraw : openingQuote? rawEncodings ['"'] cs = none) (h : scanLiteral cs = .ok x) :
    lexemeAt cs = x := by
  simp [lexemeAt, scan, scanners, scanRawString, hraw, h, Except.toOption]

private theorem lexemeAt_of_number {cs : List Char} {x : Lexeme} (hcs : Unquoted cs)
    (h : scanNumber cs = .ok x) : lexemeAt cs = x := by
  simp [lexemeAt, scan, scanners, scanRawString, scanLiteral, hcs.1, hcs.2, h, Except.toOption]

/-- A name is found where neither a literal nor a number starts. -/
private theorem lexemeAt_of_name {cs : List Char} {x : Lexeme} {e : ScanError} (hcs : Unquoted cs)
    (hnumber : scanNumber cs = .error e) (h : scanName cs = .ok x) : lexemeAt cs = x := by
  simp [lexemeAt, scan, scanners, scanRawString, scanLiteral, hcs.1, hcs.2, hnumber, h,
    Except.toOption]

/-- A punctuator is found where nothing else starts. -/
private theorem lexemeAt_of_punctuator {cs : List Char} {x : Lexeme} {e e' : ScanError}
    (hcs : Unquoted cs) (hnumber : scanNumber cs = .error e) (hname : scanName cs = .error e')
    (h : scanPunctuator cs = .ok x) : lexemeAt cs = x := by
  simp [lexemeAt, scan, scanners, scanRawString, scanLiteral, hcs.1, hcs.2, hnumber, hname, h,
    Except.toOption]

/-- A text that starts with a token starts with a raw string, or the first of the other scanners
that finds a token has found it. -/
theorem scanned_of_lexemeAt {cs : List Char} (hk : (lexemeAt cs).kind ≠ .unknown) :
    scanRawString cs = .ok (lexemeAt cs) ∨
    openingQuote? rawEncodings ['"'] cs = none ∧ scanLiteral cs = .ok (lexemeAt cs) ∨
    Unquoted cs ∧ (scanNumber cs = .ok (lexemeAt cs) ∨ ∃ e, scanNumber cs = .error e ∧
      (scanName cs = .ok (lexemeAt cs) ∨ ∃ e', scanName cs = .error e' ∧
        scanPunctuator cs = .ok (lexemeAt cs))) := by
  cases hraw : scanRawString cs with
  | ok x =>
    have hx : lexemeAt cs = x := by simp [lexemeAt, scan, scanners, hraw, Except.toOption]
    exact .inl (by rw [hx])
  | error e =>
    -- Where a raw string starts, its scanner finds one, if only one that is not closed.
    have hopen : openingQuote? rawEncodings ['"'] cs = none := by
      unfold scanRawString at hraw
      split at hraw
      · assumption
      · dsimp only at hraw
        repeat' split at hraw
        all_goals cases hraw
    cases hliteral : scanLiteral cs with
    | ok x => exact .inr (.inl ⟨hopen, by rw [lexemeAt_of_literal hopen hliteral]⟩)
    | error e =>
      -- So does the scanner of literals.
      have hcs : Unquoted cs := by
        refine ⟨hopen, ?_⟩
        unfold scanLiteral at hliteral
        split at hliteral
        · assumption
        · split at hliteral
          all_goals cases hliteral
      refine .inr (.inr ⟨hcs, ?_⟩)
      cases hnumber : scanNumber cs with
      | ok x => exact .inl (by rw [lexemeAt_of_number hcs hnumber])
      | error e =>
        refine .inr ⟨e, rfl, ?_⟩
        cases hname : scanName cs with
        | ok x => exact .inl (by rw [lexemeAt_of_name hcs hnumber hname])
        | error e' =>
          refine .inr ⟨e', rfl, ?_⟩
          cases hpunctuator : scanPunctuator cs with
          | ok x => rw [lexemeAt_of_punctuator hcs hnumber hname hpunctuator]
          | error e =>
            -- No scanner has found a token, so the character is unknown.
            have hunknown : lexemeAt cs = ⟨.unknown, 1, none⟩ := by
              simp [lexemeAt, scan, scanners, hraw, hliteral, hnumber, hname, hpunctuator,
                Except.toOption]
            rw [hunknown] at hk
            exact absurd rfl hk

/-! ## Spellings are read as they are -/

/-- A text that starts with a character that starts no encoding and is no quote starts no
literal. -/
private theorem unquoted_of_head {c : Char} {cs : List Char}
    (hc : c ∉ ['u', 'U', 'L', 'R', '"', '\'']) : Unquoted (c :: cs) := by
  -- Where no literal can start, there is no encoding before a quote.
  have hnone : ∀ e ∈ encodings ++ rawEncodings, ∀ q ∈ ['"', '\''], ∀ rest,
      c :: cs ≠ e.toList ++ q :: rest := by
    intro e he q hq rest heq
    obtain ⟨d, ds, hds, hd⟩ := literal_head he hq rest
    rw [hds] at heq
    exact hc (by rwa [(List.cons.inj heq).1])
  constructor
  · apply openingQuote?_eq_none
    intro e he q hq rest
    refine hnone e (List.mem_append_right _ he) q ?_ rest
    simpa using Or.inl (List.mem_singleton.1 hq)
  · apply openingQuote?_eq_none
    intro e he q hq rest
    exact hnone e (List.mem_append_left _ he) q hq rest

/-- Spellings that start with a digit are numbers. -/
private theorem lexemeAt_number {d : Char} {cs rest : List Char} (hd : Text.isDigit d = true)
    (htail : numberTail cs = cs.length) (hsticks : numberSticks (d :: cs) rest = false) :
    lexemeAt (d :: cs ++ rest) = ⟨.number, (d :: cs).length, none⟩ := by
  have hnot := digit_notMem hd
  have hpoint : d ≠ '.' := by
    rintro rfl
    simp at hnot
  rw [numberSticks, endsInExponent_digit hd, Bool.or_eq_false_iff] at hsticks
  -- What follows does not go on with the number.
  have hlength := (numberTail_append_eq_length_iff htail).2 ⟨by simpa using hsticks.1, hsticks.2⟩
  rw [List.cons_append]
  apply lexemeAt_of_number (unquoted_of_head (by simp_all))
  rw [scanNumber, if_pos hd, hlength]
  · simp [Nat.add_comm]
  · intro e es he
    exact absurd he hpoint

/-- Spellings that start with a period and a digit are numbers. -/
private theorem lexemeAt_fraction {d : Char} {cs rest : List Char} (hd : Text.isDigit d = true)
    (htail : numberTail cs = cs.length) (hsticks : numberSticks ('.' :: d :: cs) rest = false) :
    lexemeAt ('.' :: d :: cs ++ rest) = ⟨.number, ('.' :: d :: cs).length, none⟩ := by
  rw [numberSticks, endsInExponent_cons (.inr (by simp)) (by decide), endsInExponent_digit hd,
    Bool.or_eq_false_iff] at hsticks
  -- The tail of the number is what is spelled, and nothing more.
  have hlength := (numberTail_append_eq_length_iff htail).2 ⟨by simpa using hsticks.1, hsticks.2⟩
  rw [List.cons_append, List.cons_append]
  apply lexemeAt_of_number (unquoted_of_head (by decide))
  rw [scanNumber, if_pos hd, hlength]
  simp only [List.length_cons, Except.ok.injEq, Lexeme.mk.injEq, true_and, and_true]
  omega

/-- Spellings of literals are read up to the quote that closes them. -/
private theorem lexemeAt_literal {e : String} {quote : Char} {body : List Char} (he : e ∈ encodings)
    (hquote : quote ∈ ['"', '\'']) (hclosed : closingQuote? quote body = some body.length)
    (rest : List Char) : lexemeAt (e.toList ++ quote :: body ++ rest) =
      ⟨quoteKind quote, (e.toList ++ quote :: body).length, none⟩ := by
  rw [List.append_assoc, List.cons_append]
  apply lexemeAt_of_literal
  · apply openingQuote?_eq_none
    intro e' he' quote' hquote' rest' heq
    -- The encoding before the quote is the only one, and it is not raw.
    obtain ⟨rfl, -, -⟩ := encoding_unique (List.mem_append_left _ he) (List.mem_append_right _ he')
      hquote (by simp_all) heq
    have hdisjoint : ∀ e ∈ encodings, e ∉ rawEncodings := by decide
    exact hdisjoint e he he'
  · have hopen := openingQuote?_append (List.subset_append_left encodings rawEncodings)
      (List.Subset.refl _) he hquote (body ++ rest)
    have hclose := (closingQuote?_append hclosed rest).2
    rw [List.take_length] at hclose
    simp only [scanLiteral, hopen, hclose, quoteKind, List.length_append, List.length_cons,
      String.length_toList, Except.ok.injEq, Lexeme.mk.injEq, true_and, and_true]
    omega

/-- What precedes the first character of a text that no name holds. -/
theorem takeWhile_name_append {cs rest : List Char} (hcs : ∀ c ∈ cs, isNameChar c = true)
    (hrest : rest.head?.any isNameChar = false) : (cs ++ rest).takeWhile isNameChar = cs := by
  rw [List.takeWhile_append_of_pos hcs]
  cases rest with
  | nil => simp
  | cons d rest =>
    have hd : isNameChar d = false := by simpa using hrest
    simp [hd]

/-- A name that opens no literal is read as it is. -/
private theorem unquoted_of_name {cs rest : List Char} (hcs : ∀ c ∈ cs, isNameChar c = true)
    (hsticks : nameSticks cs rest = false) : Unquoted (cs ++ rest) := by
  simp only [nameSticks, Bool.or_eq_false_iff] at hsticks
  obtain ⟨⟨hname, hliteral⟩, hraw⟩ := hsticks
  have hchars : ∀ e ∈ encodings ++ rawEncodings, e.toList.all isNameChar = true := by decide
  have hquotes : ['"', '\''].any isNameChar = false := by decide
  -- The name is the encoding, and the quote follows it.
  have hsame : ∀ e ∈ encodings ++ rawEncodings, ∀ q ∈ ['"', '\''], ∀ after,
      cs ++ rest = e.toList ++ q :: after → e = String.ofList cs ∧ rest = q :: after := by
    intro e he q hq after heq
    have hstop : (q :: after).head?.any isNameChar = false := by
      simpa using List.any_eq_false.1 hquotes q hq
    have htake := takeWhile_name_append (List.all_eq_true.1 (hchars e he)) hstop
    rw [← heq, takeWhile_name_append hcs hname] at htake
    rw [htake, List.append_cancel_left_eq] at heq
    exact ⟨by rw [htake, String.ofList_toList], heq⟩
  constructor
  · apply openingQuote?_eq_none
    intro e he q hq after heq
    obtain rfl := List.mem_singleton.1 hq
    obtain ⟨rfl, rfl⟩ := hsame e (List.mem_append_right _ he) '"' (by simp) after heq
    simp [he] at hraw
  · apply openingQuote?_eq_none
    intro e he q hq after heq
    obtain ⟨rfl, rfl⟩ := hsame e (List.mem_append_left _ he) q hq after heq
    simp [he] at hliteral
    simp_all

/-- Spellings of names are names. -/
private theorem lexemeAt_name {cs rest : List Char} (hsolid : cs ≠ [])
    (hdigit : cs.head?.any Text.isDigit = false) (hcs : ∀ c ∈ cs, isNameChar c = true)
    (hsticks : nameSticks cs rest = false) :
    lexemeAt (cs ++ rest) = ⟨nameKind cs, cs.length, none⟩ := by
  have hname : rest.head?.any isNameChar = false := by
    simp only [nameSticks, Bool.or_eq_false_iff] at hsticks
    exact hsticks.1.1
  have hunquoted := unquoted_of_name hcs hsticks
  obtain ⟨c, cs, rfl⟩ := List.exists_cons_of_ne_nil hsolid
  have hpoint : c ≠ '.' := by
    rintro rfl
    have := hcs '.' (by simp)
    revert this
    decide
  have hdigit' : Text.isDigit c = false := by simpa using hdigit
  apply lexemeAt_of_name (e := .notNumber) hunquoted
  · rw [List.cons_append, scanNumber, if_neg (by simp [hdigit'])]
    intro e es he
    exact absurd he hpoint
  · -- The name is read to its last character.
    have htake := takeWhile_name_append hcs hname
    rw [scanName, htake]
    simp [hdigit', nameKind]

/-- Of the punctuators that a text starts with, the longest is found. -/
private theorem length_le_of_find? {p q cs : List Char}
    (h : punctuatorTexts.find? (·.isPrefixOf cs) = some p) (hq : q ∈ punctuatorTexts)
    (hstart : q <+: cs) : q.length ≤ p.length := by
  obtain ⟨-, before, after, htexts, hbefore⟩ := List.find?_eq_some_iff_append.1 h
  -- The punctuators are tried from the longest to the shortest.
  have hsorted : punctuatorTexts.Pairwise (fun p q => q.length ≤ p.length) := by decide
  rw [htexts] at hq hsorted
  rcases List.mem_append.1 hq with hin | hin
  · have hno := hbefore q hin
    rw [List.isPrefixOf_iff_prefix.2 hstart] at hno
    simp at hno
  · rcases List.mem_cons.1 hin with rfl | hin
    · exact Nat.le_refl _
    · have hlater := (List.pairwise_append.1 hsorted).2.1
      exact (List.pairwise_cons.1 hlater).1 q hin

/-- A text starts with no number if it starts with a punctuator, unless that is a period before a
digit. -/
private theorem scanNumber_of_punctuator {p rest : List Char} (hp : p ∈ punctuatorTexts)
    (h : (p = ['.'] && rest.head?.any Text.isDigit) = false) :
    scanNumber (p ++ rest) = .error .notNumber := by
  -- A punctuator that starts with a period is the period, or has no digit behind it.
  have hsecond : ∀ p ∈ punctuatorTexts, p.head? = some '.' → p = ['.'] ∨
      p[1]?.any Text.isDigit = false ∧ 1 < p.length := by decide
  obtain ⟨c, cs, rfl, -, hdigit, -⟩ := punctuator_head hp
  by_cases hpoint : c = '.'
  · subst hpoint
    cases hsecond _ hp rfl with
    | inl hcs =>
      obtain rfl : cs = [] := by simpa using hcs
      cases rest with
      | nil => rfl
      | cons d rest =>
        have hd : Text.isDigit d = false := by simpa using h
        simp [scanNumber, hd]
    | inr hcs =>
      obtain ⟨hd, hlength⟩ := hcs
      cases cs with
      | nil => simp at hlength
      | cons d cs =>
        have hd : Text.isDigit d = false := by simpa using hd
        simp [scanNumber, hd]
  · rw [List.cons_append, scanNumber, if_neg (by simp [hdigit])]
    intro d ds hc
    exact absurd hc hpoint

/-- A text that starts with a punctuator starts with no name. -/
private theorem scanName_of_punctuator {p rest : List Char} (hp : p ∈ punctuatorTexts) :
    scanName (p ++ rest) = .error .notIdentifier := by
  obtain ⟨c, cs, rfl, -, hdigit, hname, -⟩ := punctuator_head hp
  simp [scanName, hdigit, hname]

/-- Spellings of punctuators are punctuators. -/
private theorem lexemeAt_punctuator {p rest : List Char} (hp : p ∈ punctuatorTexts)
    (hsticks : punctuatorSticks p rest = false) :
    lexemeAt (p ++ rest) = ⟨.punctuator, p.length, none⟩ := by
  rw [punctuatorSticks, Bool.or_eq_false_iff, Bool.or_eq_false_iff] at hsticks
  obtain ⟨⟨-, hpoint⟩, hlonger⟩ := hsticks
  have hunquoted : Unquoted (p ++ rest) := by
    obtain ⟨c, cs, rfl, hhead, -⟩ := punctuator_head hp
    exact unquoted_of_head hhead
  apply lexemeAt_of_punctuator hunquoted (scanNumber_of_punctuator hp hpoint)
    (scanName_of_punctuator hp)
  have hstart : p <+: p ++ rest := List.prefix_append p rest
  cases hfind : punctuatorTexts.find? (·.isPrefixOf (p ++ rest)) with
  | none =>
    have hnone := List.find?_eq_none.1 hfind p hp
    exact absurd (List.isPrefixOf_iff_prefix.2 hstart) hnone
  | some q =>
    rw [scanPunctuator, hfind]
    by_cases hangle : splitsAngle (p ++ rest) = true
    · obtain rfl : p = ['<'] := by simpa [hangle] using hlonger
      simp only [if_pos hangle]
      rfl
    · have hq := List.find?_some hfind
      rw [List.isPrefixOf_iff_prefix] at hq
      -- What is found is at least as long, and not longer since nothing longer fits.
      have hge := length_le_of_find? hfind hp hstart
      have hle : q.length ≤ p.length := by
        by_contra hlt
        rw [if_neg hangle] at hlonger
        have hno := List.any_eq_false.1 hlonger q (List.mem_of_find?_eq_some hfind)
        rw [List.isPrefixOf_iff_prefix.2 hq] at hno
        simp at hno
        omega
      simp only [hangle]
      simp
      omega

/-! ## Main results -/

/-- A character that is no slash and no blank starts no gap. -/
private theorem starts_cons_eq_false {c : Char} (hslash : c ≠ '/') (hspace : isSpace c = false)
    (hnewline : c ≠ '\n') (cs : List Char) : Trivia.starts (c :: cs) = false := by
  unfold Trivia.starts
  split <;> simp_all

/-- A spelling that does not stick to what follows it starts no gap. -/
theorem starts_append {k : Kind} {cs rest : List Char} (h : Spelled k cs)
    (hsticks : sticks k cs rest = false) : Trivia.starts (cs ++ rest) = false := by
  obtain ⟨c, cs, rfl, hsolid, hhead⟩ := h.head
  have hblank : isSpace c = false ∧ c ≠ '\n' := by simpa [isSolid] using hsolid
  by_cases hslash : c = '/'
  · subst hslash
    obtain ⟨rfl, rfl | rfl⟩ := hhead rfl
    · -- Only here what follows matters.
      cases rest with
      | nil => rfl
      | cons d rest =>
        simp only [sticks, punctuatorSticks, Bool.or_eq_false_iff] at hsticks
        have hd : d ≠ '/' ∧ d ≠ '*' := by simpa using hsticks.1.1
        simp [Trivia.starts, hd, isSpace]
    · rfl
  · exact starts_cons_eq_false hslash hblank.1 hblank.2 _

/-- A spelling is read as it is, unless it sticks to what follows it. -/
theorem lexemeAt_append {k : Kind} {cs rest : List Char} (h : Spelled k cs)
    (hsticks : sticks k cs rest = false) : lexemeAt (cs ++ rest) = ⟨k, cs.length, none⟩ := by
  cases h with
  | name kind solid digit chars =>
    -- Keywords stick to what follows as other names do.
    have hname : nameSticks cs rest = false := by
      subst kind
      unfold nameKind at hsticks
      split at hsticks <;> exact hsticks
    rw [lexemeAt_name solid digit chars hname, kind]
  | number digit tail => exact lexemeAt_number digit tail hsticks
  | fraction digit tail => exact lexemeAt_fraction digit tail hsticks
  | literal kind known quotes closed => rw [lexemeAt_literal known quotes closed, kind]
  | punctuator known => exact lexemeAt_punctuator known hsticks

/-! ## What is read is a spelling -/

/-- The lexeme `x` is that of the spelling `cs`, which does not stick to `rest`. -/
structure Lexeme.Spells (x : Lexeme) (cs rest : List Char) : Prop where
  length : x.length = cs.length
  spelled : Spelled x.kind cs
  loose : sticks x.kind cs rest = false

/-- What continues a number and what does not, when the number is read as far as it goes. -/
private theorem numberTail_split (tail : List Char) :
    ∃ cs rest, tail = cs ++ rest ∧ numberTail tail = cs.length ∧ numberTail cs = cs.length ∧
      (decide (numberTail rest ≠ 0) || (endsInExponent cs && startsWithSign rest)) = false := by
  obtain ⟨hle, htake⟩ := numberTail_take tail
  have hlength := List.length_take_of_le hle
  have hsplit : tail = tail.take (numberTail tail) ++ tail.drop (numberTail tail) :=
    (List.take_append_drop _ _).symm
  have hcs : numberTail (tail.take (numberTail tail)) = (tail.take (numberTail tail)).length := by
    rw [htake, hlength]
  refine ⟨_, _, hsplit, hlength.symm, hcs, ?_⟩
  -- The number stops where it does because nothing behind it continues it.
  have hstop := (numberTail_append_eq_length_iff hcs).1 (by rw [← hsplit, hlength])
  rw [Bool.or_eq_false_iff]
  exact ⟨by simpa using hstop.1, hstop.2⟩

/-- A number is read as far as it goes. -/
private theorem spells_scanNumber {cs : List Char} {x : Lexeme} (h : scanNumber cs = .ok x) :
    ∃ value rest, cs = value ++ rest ∧ x.Spells value rest := by
  unfold scanNumber at h
  split at h
  · rename_i d tail
    split at h
    · rename_i hd
      obtain rfl := Except.ok.inj h
      obtain ⟨value, rest, rfl, hlength, hvalue, hstop⟩ := numberTail_split tail
      -- It starts with a period and a digit.
      refine ⟨'.' :: d :: value, rest, rfl, ?_, .fraction hd hvalue, ?_⟩
      · simp only [hlength, List.length_cons]
        omega
      · show numberSticks _ _ = false
        rwa [numberSticks, endsInExponent_cons (.inr (by simp)) (by decide),
          endsInExponent_digit hd]
    · cases h
  · rename_i d tail _
    split at h
    · rename_i hd
      obtain rfl := Except.ok.inj h
      obtain ⟨value, rest, rfl, hlength, hvalue, hstop⟩ := numberTail_split tail
      -- It starts with a digit.
      refine ⟨d :: value, rest, rfl, ?_, .number hd hvalue, ?_⟩
      · simp only [hlength, List.length_cons]
        omega
      · show numberSticks _ _ = false
        rwa [numberSticks, endsInExponent_digit hd]
    · cases h
  · cases h

/-- A literal that is read is closed, or unknown. -/
private theorem spells_scanLiteral {cs : List Char} {x : Lexeme} (h : scanLiteral cs = .ok x)
    (hk : x.kind ≠ .unknown) : ∃ value rest, cs = value ++ rest ∧ x.Spells value rest := by
  unfold scanLiteral at h
  split at h
  · cases h
  · rename_i n quote rest hopen
    obtain ⟨e, he, rfl, hquote, rfl⟩ := openingQuote?_eq_some hopen
    split at h
    · rename_i m hclosed
      obtain rfl := Except.ok.inj h
      -- A literal that is closed ends at its quote, whatever follows.
      obtain ⟨hle, hbody⟩ := closingQuote?_append hclosed []
      have hlength := List.length_take_of_le hle
      rw [List.append_nil] at hbody
      refine ⟨e.toList ++ quote :: rest.take m, rest.drop m, ?_, ?_, ?_, ?_⟩
      · rw [List.append_assoc, List.cons_append, List.take_append_drop]
      · simp only [List.length_append, List.length_cons, String.length_toList, hlength]
        omega
      · exact .literal rfl he hquote (by rw [hbody, hlength])
      · dsimp only
        split <;> rfl
    · obtain rfl := Except.ok.inj h
      exact absurd rfl hk

/-- Where no literal is opened, no encoding stands before a quote. -/
private theorem not_opened {encs : List String} {quotes value rest : List Char}
    (hencs : encs ⊆ encodings ++ rawEncodings) (hquotes : quotes ⊆ ['"', '\''])
    (h : openingQuote? encs quotes (value ++ rest) = none) :
    (encs.contains (String.ofList value) && rest.head?.any (quotes.contains ·)) = false := by
  cases rest with
  | nil => simp
  | cons quote rest =>
    rw [Bool.and_eq_false_imp]
    intro he
    by_contra hquote
    -- Otherwise the name and the quote behind it would open a literal.
    have hopen := openingQuote?_append hencs hquotes (List.contains_iff_mem.1 he)
      (by simpa using hquote) rest
    rw [String.toList_ofList, h] at hopen
    cases hopen

/-- A name is read where no literal is opened, so its spelling does not stick to a quote. -/
private theorem spells_scanName {cs : List Char} {x : Lexeme} (hcs : Unquoted cs)
    (h : scanName cs = .ok x) : ∃ value rest, cs = value ++ rest ∧ x.Spells value rest := by
  unfold scanName at h
  split at h
  · cases h
  · rename_i hdigit
    dsimp only at h
    split at h
    · cases h
    · rename_i hsolid
      obtain rfl := Except.ok.inj h
      have hsplit : cs.takeWhile isNameChar ++ cs.dropWhile isNameChar = cs :=
        List.takeWhile_append_dropWhile
      -- The name ends before the first character that cannot be part of it.
      have hstop : (cs.dropWhile isNameChar).head?.any isNameChar = false := by
        have hhead := List.head?_dropWhile_not isNameChar cs
        cases hdrop : cs.dropWhile isNameChar with
        | nil => rfl
        | cons c rest =>
          rw [hdrop] at hhead
          simpa using hhead
      have hchars : ∀ c ∈ cs.takeWhile isNameChar, isNameChar c = true :=
        List.all_eq_true.1 List.all_takeWhile
      generalize cs.takeWhile isNameChar = value at *
      generalize cs.dropWhile isNameChar = rest at *
      subst hsplit
      obtain ⟨c, value, rfl⟩ := List.exists_cons_of_ne_nil (by simpa using hsolid)
      -- The name is no encoding before a quote, or a literal would have been found.
      have hloose : nameSticks (c :: value) rest = false := by
        rw [nameSticks, hstop, Bool.false_or, Bool.or_eq_false_iff]
        exact ⟨not_opened (List.subset_append_left _ _) (List.Subset.refl _) hcs.2,
          not_opened (List.subset_append_right _ _) (by simp) hcs.1⟩
      refine ⟨c :: value, rest, rfl, rfl, ?_, ?_⟩
      · exact .name rfl (by simp) (by simpa using hdigit) hchars
      · dsimp only
        split <;> exact hloose

/-- A slash that starts no comment. -/
private theorem any_of_starts_slash {rest : List Char} (h : Trivia.starts ('/' :: rest) = false) :
    rest.head?.any (['/', '*'].contains ·) = false := by
  cases rest with
  | nil => rfl
  | cons d rest =>
    have hd : ∀ c ∈ ['/', '*'], d ≠ c := by
      rintro c hc rfl
      simp only [List.mem_cons, List.not_mem_nil, or_false] at hc
      rcases hc with rfl | rfl <;> simp [Trivia.starts] at h
    simpa using hd

/-- A period that starts no number. -/
private theorem any_of_scanNumber_point {rest : List Char} {e : ScanError}
    (h : scanNumber ('.' :: rest) = .error e) : rest.head?.any Text.isDigit = false := by
  cases rest with
  | nil => rfl
  | cons d rest =>
    by_contra hd
    simp_all [scanNumber]

/-- A punctuator is read as far as it goes, where no number and no comment starts. -/
private theorem spells_scanPunctuator {cs : List Char} {x : Lexeme} {e : ScanError}
    (hstarts : Trivia.starts cs = false) (hnumber : scanNumber cs = .error e)
    (h : scanPunctuator cs = .ok x) : ∃ value rest, cs = value ++ rest ∧ x.Spells value rest := by
  unfold scanPunctuator at h
  split at h
  · cases h
  · rename_i p hfind
    obtain rfl := Except.ok.inj h
    have hp := List.mem_of_find?_eq_some hfind
    have hstart := List.find?_some hfind
    rw [List.isPrefixOf_iff_prefix] at hstart
    by_cases hangle : splitsAngle cs = true
    · -- The sign before a scope is cut short.
      obtain ⟨rest, rfl⟩ : ∃ rest, cs = ['<'] ++ rest := by
        unfold splitsAngle at hangle
        split at hangle
        · exact ⟨_, rfl⟩
        · cases hangle
      refine ⟨['<'], rest, rfl, by simp only [if_pos hangle]; rfl, .punctuator (by decide), ?_⟩
      show punctuatorSticks _ _ = false
      rw [punctuatorSticks, if_pos hangle]
      simp
    · obtain ⟨rest, rfl⟩ := hstart
      refine ⟨p, rest, rfl, by simp only [if_neg hangle], .punctuator hp, ?_⟩
      simp only [sticks, punctuatorSticks, if_neg hangle, Bool.or_eq_false_iff]
      refine ⟨⟨?_, ?_⟩, ?_⟩
      · by_cases hslash : p = ['/']
        · subst hslash
          rw [@any_of_starts_slash rest hstarts, Bool.and_false]
        · simp [hslash]
      · by_cases hpoint : p = ['.']
        · subst hpoint
          rw [@any_of_scanNumber_point rest e hnumber, Bool.and_false]
        · simp [hpoint]
      · -- The punctuators are tried from the longest to the shortest.
        rw [List.any_eq_false]
        intro q hq hlonger
        simp only [Bool.and_eq_true, decide_eq_true_eq, List.isPrefixOf_iff_prefix] at hlonger
        have hle := length_le_of_find? hfind hq hlonger.2
        omega

/-- A token that is read is a spelling that does not stick to what follows, unless it is unknown or
a raw string. -/
theorem spells_lexemeAt {cs : List Char} (hstarts : Trivia.starts cs = false)
    (hk : (lexemeAt cs).kind ≠ .unknown)
    (hraw : scanRawString cs ≠ .ok (lexemeAt cs)) :
    ∃ value rest, cs = value ++ rest ∧ (lexemeAt cs).Spells value rest := by
  rcases scanned_of_lexemeAt hk with h | ⟨-, h⟩ | ⟨hcs, h | ⟨e, hnumber, h | ⟨e', -, h⟩⟩⟩
  · exact absurd h hraw
  · exact spells_scanLiteral h hk
  · exact spells_scanNumber h
  · exact spells_scanName hcs h
  · exact spells_scanPunctuator hstarts hnumber h

end Preproc
