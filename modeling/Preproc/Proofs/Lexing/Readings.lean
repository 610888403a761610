import Preproc.Proofs.Lexing.Lexemes

/-!
# What is read of a logical text

What is read of a logical text is followed along it piece by piece: a blank or a comment is white
space before what comes next, and a spelling that does not stick to what follows it is one token.

## Key results

- `readings_gap`: blanks and comments are white space before the next token
- `readings_spelled`: a spelling that does not stick to what follows is a token
- `not_sticks_space`, `not_sticks_nil`: no spelling sticks to a space or to the end of the text
-/

namespace Preproc

/-- Macros may be expanded at every token that is read. -/
private theorem expandable_of_mem_readings {white bol : Bool} {cs : List Char} {t : Token}
    (h : t ∈ readings white bol cs) : t.expandable = true := by
  fun_induction readings white bol cs with
  | case1 =>
    rw [List.mem_singleton.1 h]
    rfl
  | case2 white bol cs gap rest x w hmore ih =>
    rcases List.mem_cons.1 h with rfl | hlater
    · rfl
    · exact ih hlater

/-- Every token of a text that is read again may be expanded. -/
theorem expandable_of_mem_relex {text : List Char} {t : Token} (h : t ∈ (relex text).value) :
    t.expandable = true := by
  have hread : t.unplaced ∈ (relex text).value.map Token.unplaced := List.mem_map_of_mem h
  rw [relex, Noted.value_bind, unplaced_all] at hread
  exact @expandable_of_mem_readings _ _ _ t.unplaced (List.dropLast_subset _ hread)

/-! ## White space -/

/-- A gap goes on behind a blank that ends no line. -/
private theorem gapAt_space {c : Char} (hc : isSpace c = true) (cs : List Char) :
    gapAt (c :: cs) = (gapAt cs).after 1 false := by
  -- A blank starts no comment.
  have hslash : c ≠ '/' := by
    rintro rfl
    revert hc
    decide
  rw [gapAt, if_pos hc]
  · intro rest heq
    exact absurd heq hslash
  · intro rest heq
    exact absurd heq hslash

/-- The end of a comment is found where it first occurs. -/
private theorem offsetOf?_closing {body : List Char} (h : ¬['*', '/'] <:+: body)
    (rest : List Char) : offsetOf? ['*', '/'] (body ++ '*' :: '/' :: rest) = some body.length := by
  have hgo : ∀ n, offsetOf?.go ['*', '/'] n (body ++ '*' :: '/' :: rest) =
      some (n + body.length) := by
    induction body with
    | nil => simp [offsetOf?.go]
    | cons c body ih =>
      intro n
      rw [List.infix_cons_iff, not_or] at h
      -- The mark does not start here: its second character would be the first of the mark.
      have hstart : List.isPrefixOf ['*', '/'] (c :: (body ++ '*' :: '/' :: rest)) = false := by
        rw [Bool.eq_false_iff]
        intro hmark
        obtain ⟨after, hafter⟩ := List.isPrefixOf_iff_prefix.1 hmark
        cases body with
        | nil => simp at hafter
        | cons d body =>
          simp only [List.cons_append, List.nil_append, List.cons.injEq] at hafter
          obtain ⟨rfl, rfl, -⟩ := hafter
          exact h.1 (List.prefix_append ['*', '/'] body)
      rw [List.cons_append, offsetOf?.go, hstart, if_neg (by simp), ih h.2, List.length_cons]
      simp only [Option.some.injEq]
      omega
  have hfound := hgo 0
  rwa [Nat.zero_add] at hfound

/-- A gap goes on behind a comment. -/
private theorem gapAt_comment {body : List Char} (h : ¬['*', '/'] <:+: body) (rest : List Char) :
    gapAt ('/' :: '*' :: (body ++ '*' :: '/' :: rest)) =
      (gapAt rest).after (body.length + 4) false := by
  have hdrop : (body ++ '*' :: '/' :: rest).drop (body.length + 2) = rest := by simp
  rw [gapAt, offsetOf?_closing h]
  simp only [hdrop]

/-- A gap that goes on leaves the tokens behind it as they are, after white space. -/
private theorem readings_of_gapAt {cs rest : List Char} {n : Nat} (hn : 0 < n)
    (hdrop : cs.drop n = rest) (h : gapAt cs = (gapAt rest).after n false) (white bol : Bool) :
    readings white bol cs = readings true bol rest := by
  have hrest : cs.drop (gapAt cs).length = rest.drop (gapAt rest).length := by
    rw [h, ← hdrop, List.drop_drop, hdrop]
    rfl
  -- Behind a part of a gap white space has been seen, whatever comes next.
  have hwhite : (white || decide (0 < (gapAt cs).length)) =
      (true || decide (0 < (gapAt rest).length)) := by
    have hlength : (gapAt cs).length = n + (gapAt rest).length := by rw [h]; rfl
    rw [decide_eq_true (by omega), Bool.or_true, Bool.true_or]
  have hnewline : (gapAt cs).newline = (gapAt rest).newline := by
    rw [h]
    exact Bool.false_or _
  rw [readings, readings.eq_def true]
  simp only [hrest, hwhite, hnewline]

/-- A piece of a gap within a line: a blank, or a comment that is closed. -/
inductive Trivia.Inline : Trivia → Prop
  | blank {c : Char} (space : isSpace c = true) : Inline (.blank c)
  | comment {body : List Char} (first : ¬['*', '/'] <:+: body) : Inline (.blockComment body)

open Trivia

/-- Blanks and comments are white space before the next token. -/
theorem readings_gap {gap : List Trivia} (h : ∀ p ∈ gap, p.Inline) (white bol : Bool)
    (rest : List Char) :
    readings white bol (texts gap ++ rest) = readings (white || !gap.isEmpty) bol rest := by
  induction gap generalizing white with
  | nil => simp
  | cons p gap ih =>
    have hmore := ih (fun q hq => h q (List.mem_cons_of_mem p hq)) true
    have hp : readings white bol (p.text ++ (texts gap ++ rest)) =
        readings true bol (texts gap ++ rest) := by
      cases h p List.mem_cons_self with
      | blank space => exact readings_of_gapAt Nat.one_pos rfl (gapAt_space space _) white bol
      -- A comment ends at its own end, whatever follows.
      | @comment body first =>
        have htext : (blockComment body).text ++ (texts gap ++ rest) =
            '/' :: '*' :: (body ++ '*' :: '/' :: (texts gap ++ rest)) := by
          simp [Trivia.text]
        rw [htext]
        apply readings_of_gapAt _ _ (gapAt_comment first _)
        · omega
        · simp
    rw [texts_cons, List.append_assoc, hp, hmore]
    simp

/-- A space is white space before the next token. -/
theorem readings_space (white bol : Bool) (rest : List Char) :
    readings white bol (' ' :: rest) = readings true bol rest :=
  readings_of_gapAt Nat.one_pos rfl (gapAt_space (by decide) rest) white bol

/-! ## Tokens -/

/-- A spelling that does not stick to what follows it is a token. -/
theorem readings_spelled {k : Kind} {value rest : List Char} (h : Spelled k value)
    (hloose : sticks k value rest = false) (white bol : Bool) :
    readings white bol (value ++ rest) =
      reading k value white bol :: readings false false rest := by
  have hgap := gapAt_of_starts (starts_append h hloose)
  have hsolid : (value ++ rest).isEmpty = false := by
    obtain ⟨c, cs, rfl, -⟩ := h.head
    rfl
  rw [readings]
  simp only [hgap, List.drop_zero, hsolid, lexemeAt_append h hloose, List.take_left,
    List.drop_left]
  simp

/-- Nothing is read of an empty text but its end. -/
theorem readings_nil (white bol : Bool) :
    readings white bol [] = [reading .eof [] white false] := by
  rw [readings]
  simp [gapAt]

/-! ## What stands before a text -/

/-- White space before a text shows at its first token only. -/
theorem exists_readings (bol : Bool) (cs : List Char) :
    ∃ (t : Token) (ts : List Token), ∀ white,
      readings white bol cs = t.withWhite (white || t.prevWhite) :: ts := by
  let rest := cs.drop (gapAt cs).length
  by_cases hrest : (cs.drop (gapAt cs).length).isEmpty = true
  · -- The end token tells of white space as other tokens do.
    refine ⟨reading .eof [] (decide (0 < (gapAt cs).length)) false, [], fun white => ?_⟩
    rw [readings]
    simp only [hrest, if_true]
    rfl
  · refine ⟨reading (lexemeAt rest).kind (rest.take (lexemeAt rest).length)
      (decide (0 < (gapAt cs).length)) (bol || (gapAt cs).newline),
      readings false false (rest.drop (lexemeAt rest).length), fun white => ?_⟩
    rw [readings]
    simp only [hrest]
    rfl

/-- A gap without newlines ends no line. -/
private theorem newline_gapAt {cs : List Char} (h : '\n' ∉ cs) : (gapAt cs).newline = false := by
  obtain ⟨ps, after, rfl, -, -, hnewline⟩ := fills_gapAt cs
  rw [Bool.eq_false_iff]
  intro hends
  apply h
  apply List.mem_append_left
  exact List.mem_flatMap.2 ⟨.newline, hnewline.1 hends, List.mem_singleton_self _⟩

/-- Without newlines no token behind the first starts a line. -/
theorem bol_of_mem_readings {white bol : Bool} {cs : List Char} (h : '\n' ∉ cs) {t : Token}
    (ht : t ∈ readings white bol cs) (hstart : t.bol = true) : bol = true := by
  fun_induction readings white bol cs with
  | case1 white bol cs gap rest w hempty =>
    rw [List.mem_singleton.1 ht] at hstart
    cases hstart
  | case2 white bol cs gap rest x w hmore ih =>
    have hrest : '\n' ∉ rest := fun hmem => h (List.mem_of_mem_drop hmem)
    rcases List.mem_cons.1 ht with rfl | hlater
    · -- The first token starts a line if it did so before the gap.
      have hboth : (bol || (gapAt cs).newline) = true := hstart
      rwa [newline_gapAt h, Bool.or_false] at hboth
    · -- All others are read behind a token, which is not the start of a line.
      exact absurd (ih (fun hmem => hrest (List.mem_of_mem_drop hmem)) hlater) (by simp)

/-! ## What does not stick -/

/-- A name sticks only to what continues it, and to quotes. -/
theorem not_nameSticks {rest : List Char}
    (h : rest.head?.any (fun c => isNameChar c || ['"', '\''].contains c) = false)
    (value : List Char) : nameSticks value rest = false := by
  cases rest with
  | nil => simp [nameSticks]
  | cons c rest =>
    simp only [List.head?_cons, Option.any_some, Bool.or_eq_false_iff] at h
    -- The quotes of raw strings are among those of literals.
    have hquote : ['"'].contains c = false := by
      simp_all
    simp only [nameSticks, List.head?_cons, Option.any_some, h.1, h.2, hquote, Bool.and_false,
      Bool.or_false]

/-- Only these three characters are parted. -/
private theorem prefix_of_splitsAngle {cs : List Char} (h : splitsAngle cs = true) :
    ['<', ':', ':'] <+: cs := by
  unfold splitsAngle at h
  split at h
  · exact List.prefix_append ['<', ':', ':'] _
  · cases h

/-- A punctuator does not stick to a text with which it makes no comment, no number and no longer
punctuator. -/
private theorem not_punctuatorSticks {p rest : List Char}
    (hcomment : p = ['/'] → rest.head?.any (['/', '*'].contains ·) = false)
    (hnumber : p = ['.'] → rest.head?.any Text.isDigit = false)
    (hangle : ¬['<', ':', ':'] <+: p ++ rest)
    (hlonger : ∀ q ∈ punctuatorTexts, q <+: p ++ rest → q.length ≤ p.length) :
    punctuatorSticks p rest = false := by
  -- The exception for `<::` does not apply.
  have hsplits : splitsAngle (p ++ rest) = false :=
    Bool.eq_false_iff.2 fun h => hangle (prefix_of_splitsAngle h)
  simp only [punctuatorSticks, hsplits, Bool.or_eq_false_iff, Bool.and_eq_false_imp,
    decide_eq_true_eq, Bool.false_eq_true, if_false]
  refine ⟨⟨hcomment, hnumber⟩, List.any_eq_false.2 fun q hq hmore => ?_⟩
  simp only [Bool.and_eq_true, decide_eq_true_eq, List.isPrefixOf_iff_prefix] at hmore
  have hle := hlonger q hq hmore.2
  omega

/-- These punctuators start no other one. -/
theorem not_punctuatorSticks_of_mem {p : List Char}
    (hp : p ∈ [['('], [')'], [','], ['.', '.', '.'], ['=', '=']]) (rest : List Char) :
    punctuatorSticks p rest = false := by
  have hfirst : ∀ p ∈ [['('], [')'], [','], ['.', '.', '.'], ['=', '=']],
      p ≠ ['/'] ∧ p ≠ ['.'] ∧ ¬['<'] <+: p ∧ ['<'].length ≤ p.length ∧
        ∀ q ∈ punctuatorTexts, p <+: q → q.length ≤ p.length := by decide
  obtain ⟨hslash, hpoint, hangle, hlength, hlongest⟩ := hfirst p hp
  apply not_punctuatorSticks
  · exact fun heq => absurd heq hslash
  · exact fun heq => absurd heq hpoint
  · intro hstart
    apply hangle
    apply List.prefix_of_prefix_length_le _ (List.prefix_append p rest) hlength
    exact (List.prefix_append ['<'] [':', ':']).trans hstart
  · intro q hq hstart
    by_contra hlt
    -- A longer punctuator would start with this one.
    have hlonger := List.prefix_of_prefix_length_le (List.prefix_append p rest) hstart (by omega)
    exact hlt (hlongest q hq hlonger)

/-- An equals sign sticks to another only. -/
theorem not_punctuatorSticks_equals {rest : List Char} (h : rest.head? ≠ some '=') :
    punctuatorSticks ['='] rest = false := by
  have hfirst : ∀ q ∈ punctuatorTexts, ['='] <+: q → q = ['='] ∨ q = ['=', '='] := by decide
  apply not_punctuatorSticks
  · intro heq
    cases heq
  · intro heq
    cases heq
  · rintro ⟨after, heq⟩
    cases heq
  · intro q hq hstart
    by_contra hlt
    have hlonger : ['='] <+: q :=
      List.prefix_of_prefix_length_le (List.prefix_append ['='] rest) hstart
        (show 1 ≤ q.length by simp only [List.length_singleton] at hlt; omega)
    -- The only longer one that starts with an equals sign is the comparison.
    rcases hfirst q hq hlonger with rfl | rfl
    · exact hlt (Nat.le_refl _)
    · obtain ⟨after, rfl⟩ := (List.cons_prefix_cons.1 hstart).2
      exact h rfl

/-- No punctuator sticks to a space. -/
private theorem not_punctuatorSticks_space {p : List Char} (hp : p ∈ punctuatorTexts)
    (rest : List Char) : punctuatorSticks p (' ' :: rest) = false := by
  have hsolid : ∀ q ∈ ['<', ':', ':'] :: punctuatorTexts, ' ' ∉ q := by decide
  -- A text that goes on behind `p` holds the space.
  have hlonger : ∀ q ∈ ['<', ':', ':'] :: punctuatorTexts, q <+: p ++ ' ' :: rest →
      q.length ≤ p.length := by
    intro q hq hstart
    by_contra hlt
    have hcut : p ++ [' '] <+: p ++ ' ' :: rest := ⟨rest, by simp⟩
    have hheld := List.prefix_of_prefix_length_le hcut hstart (by simp; omega)
    exact hsolid q hq (hheld.subset (by simp))
  apply not_punctuatorSticks
  · exact fun _ => rfl
  · exact fun _ => rfl
  · intro hstart
    have hlength := hlonger _ List.mem_cons_self hstart
    -- No punctuator starts with the three characters that are parted.
    have hnone : ∀ p ∈ punctuatorTexts, ¬['<', ':', ':'] <+: p := by decide
    apply hnone p hp
    exact List.prefix_of_prefix_length_le hstart (List.prefix_append p _) hlength
  · exact fun q hq => hlonger q (List.mem_cons_of_mem _ hq)

/-- A spelling does not stick to a text to which no name, number or punctuator does. -/
private theorem not_sticks {k : Kind} {value rest : List Char} (h : Spelled k value)
    (hname : nameSticks value rest = false) (hnumber : numberSticks value rest = false)
    (hpunctuator : ∀ p ∈ punctuatorTexts, punctuatorSticks p rest = false) :
    sticks k value rest = false := by
  cases h with
  | name kind _ _ _ =>
    subst kind
    unfold nameKind
    split <;> exact hname
  | number => exact hnumber
  | fraction => exact hnumber
  -- A literal is closed, and sticks to nothing.
  | literal kind _ _ _ =>
    subst kind
    unfold quoteKind
    split <;> rfl
  | punctuator known => exact hpunctuator _ known

/-- No spelling sticks to a space. -/
theorem not_sticks_space {k : Kind} {value : List Char} (h : Spelled k value) (rest : List Char) :
    sticks k value (' ' :: rest) = false := by
  apply not_sticks h
  · exact not_nameSticks rfl value
  · have htail : numberTail (' ' :: rest) = 0 := by
      cases rest with
      | nil => rfl
      | cons d rest => rfl
    simp [numberSticks, htail, startsWithSign]
  · exact fun p hp => not_punctuatorSticks_space hp rest

/-- No spelling sticks to the end of the text. -/
theorem not_sticks_nil {k : Kind} {value : List Char} (h : Spelled k value) :
    sticks k value [] = false := by
  apply not_sticks h
  · exact not_nameSticks rfl value
  · simp [numberSticks, numberTail, startsWithSign]
  · decide

end Preproc
