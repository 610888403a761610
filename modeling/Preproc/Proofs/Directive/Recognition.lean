import Preproc.Proofs.Conditional.Marks
import Preproc.Proofs.Directive.Backtracking

/-!
# Recognizing directives

The form of a directive is told by its word, and no word starts two forms. So at most one form takes
a line, the others leave no trace, and the order in which they are tried does not matter.

In skipped code only conditional directives are known. Since their forms never refuse what follows
their word, a line that is read as a conditional directive elsewhere is read as the same one there,
and all other lines hold a directive that is not known.

## Key results

- `Production.eq_of_read?`: at most one form takes a line
- `readDirective_perm`: the order of the forms does not matter
- `parseLine_true`: what a line is in skipped code
- `directive_recognition`: both, with the position that is left
-/

namespace Preproc

/-! ## One form for each word -/

namespace Production

variable {p q : Production} {line rest : List Token} {v w : Directive × List Token}

/-- The forms that are tried on a line. -/
def tried (conditionalOnly : Bool) : List Production :=
  if conditionalOnly then conditionalProductions else conditionalProductions ++ otherProductions

/-- The form that starts with a word. -/
def ofWord? (word : String) : Option Production :=
  (tried false).find? (·.words.contains word)

/-- No word starts two forms, so each form is found by any of its words. -/
private theorem ofWord?_of_mem {word : String} (h : word ∈ p.words) : ofWord? word = some p := by
  cases p with
  -- This form has three words, and the others have one each.
  | inclusion =>
    simp only [words, List.mem_cons, List.not_mem_nil, or_false] at h
    rcases h with rfl | rfl | rfl
    · decide
    · decide
    · decide
  | _ =>
    rw [List.mem_singleton.1 h]
    decide

/-- A form takes only what starts with one of its words. -/
private theorem mem_words_of_read? (h : (p.read? line rest).value = some v) :
    ∃ word more, rest = word :: more ∧ word.value ∈ p.words ∧
      (p.readOperands line word more).value = some v := by
  cases rest with
  | nil => cases h
  | cons word more =>
    rw [read?] at h
    split at h
    · rename_i hword
      rw [Bool.and_eq_true, List.contains_iff_mem] at hword
      exact ⟨word, more, rfl, hword.2, h⟩
    · cases h

/-- At most one form takes the tokens that remain. -/
theorem eq_of_read? (hp : (p.read? line rest).value = some v)
    (hq : (q.read? line rest).value = some w) : p = q := by
  obtain ⟨word, more, rfl, hpword, -⟩ := mem_words_of_read? hp
  obtain ⟨word', more', heq, hqword, -⟩ := mem_words_of_read? hq
  -- Both start with the word that the line has.
  obtain ⟨rfl, rfl⟩ := List.cons.inj heq
  exact Option.some.inj ((ofWord?_of_mem hpword).symm.trans (ofWord?_of_mem hqword))

/-- A form that refuses what follows its word notes nothing. -/
private theorem notes_readOperands {word : Token}
    (h : (p.readOperands line word rest).value = none) :
    (p.readOperands line word rest).notes = [] := by
  -- Only tests make notes, and they refuse nothing.
  cases p with
  | ifdef => cases h
  | ifndef => cases h
  | elifdef => cases h
  | elifndef => cases h
  | define =>
    rw [readOperands]
    cases readDefinition rest with
    | ok r => rfl
    | error e => rfl
  | undef =>
    cases rest with
    | nil => rfl
    | cons t last => rfl
  | _ => rfl

/-- A form that refuses the tokens that remain notes nothing. -/
private theorem read?_of_refused (h : (p.read? line rest).value = none) :
    p.read? line rest = pure none := by
  refine Noted.ext h ?_
  cases rest with
  | nil => rfl
  | cons word more =>
    rw [read?] at h ⊢
    -- Either the word is another one, or the operands were refused.
    by_cases hword : (word.isName && p.words.contains word.value) = true
    · rw [if_pos hword] at h ⊢
      exact notes_readOperands h
    · rw [if_neg hword]

/-- The conditional directives are those that conditional forms take. -/
private theorem isConditional_of_read? (h : (p.read? line rest).value = some v) :
    v.1.isConditional = conditionalProductions.contains p := by
  obtain ⟨word, more, -, -, htaken⟩ := mem_words_of_read? h
  rw [Directive.isConditional_eq, label_of_readOperands htaken]
  cases p <;> decide

end Production

/-! ## The order of the forms -/

section Order

variable {line rest : List Token}

/-- A form that refuses a line might as well not be tried. -/
private theorem readDirective_of_refused {p : Production} (h : (p.read? line rest).value = none)
    (ps : List Production) : readDirective line rest (p :: ps) = readDirective line rest ps := by
  rw [readDirective_cons, Production.read?_of_refused h]
  rfl

/-- What is tried after the form that takes the line does not matter. -/
private theorem readDirective_of_taken {p : Production} {v : Directive × List Token}
    (h : (p.read? line rest).value = some v) (ps qs : List Production) :
    readDirective line rest (p :: ps) = readDirective line rest (p :: qs) := by
  have hvalue : p.read? line rest = ⟨some v, (p.read? line rest).notes⟩ := Noted.ext h rfl
  rw [readDirective_cons, readDirective_cons, hvalue]
  rfl

private theorem readDirective_congr {ps qs : List Production}
    (h : readDirective line rest ps = readDirective line rest qs) (p : Production) :
    readDirective line rest (p :: ps) = readDirective line rest (p :: qs) := by
  rw [readDirective_cons, readDirective_cons, h]

/-- Two forms can be tried either way round, since one of them refuses the line. -/
private theorem readDirective_swap (p q : Production) (ps : List Production) :
    readDirective line rest (p :: q :: ps) = readDirective line rest (q :: p :: ps) := by
  -- A form that refuses the line can be taken out of both lists.
  cases hp : (p.read? line rest).value with
  | none =>
    rw [readDirective_of_refused hp]
    exact readDirective_congr (readDirective_of_refused hp ps).symm q
  | some v =>
    cases hq : (q.read? line rest).value with
    | none =>
      rw [readDirective_of_refused hq]
      exact readDirective_congr (readDirective_of_refused hq ps) p
    | some w => rw [Production.eq_of_read? hp hq]

/-- The order in which forms are tried does not matter. -/
theorem readDirective_perm {ps qs : List Production} (h : ps.Perm qs) :
    readDirective line rest ps = readDirective line rest qs := by
  induction h with
  | nil => rfl
  | cons p _ ih => exact readDirective_congr ih p
  | swap p q ps => exact readDirective_swap q p ps
  | trans _ _ ih ih' => exact ih.trans ih'

/-- Lines are read the same in whatever order the forms are tried. -/
private theorem parseLineWith_perm {ps qs : List Production} (h : ps.Perm qs) (line : List Token) :
    parseLineWith ps line = parseLineWith qs line := by
  cases hhash : line.head?.any Token.isHash with
  | false => rw [parseLineWith_of_not_hash ps hhash, parseLineWith_of_not_hash qs hhash]
  | true =>
    cases line with
    | nil => cases hhash
    | cons t rest =>
      rw [parseLineWith_of_hash ps hhash, parseLineWith_of_hash qs hhash, readDirective_perm h]

/-! ## Skipped code -/

/-- Forms that all refuse a line might as well not be tried. -/
private theorem readDirective_append_of_refused {ps : List Production}
    (h : ∀ p ∈ ps, (p.read? line rest).value = none) (qs : List Production) :
    readDirective line rest (ps ++ qs) = readDirective line rest qs := by
  induction ps with
  | nil => rfl
  | cons p ps ih =>
    obtain ⟨hp, hps⟩ := List.forall_mem_cons.1 h
    rw [List.cons_append, readDirective_of_refused hp, ih hps]

/-- Behind a form that takes the line nothing is tried. -/
private theorem readDirective_append_of_taken {p : Production} {ps : List Production} (hp : p ∈ ps)
    {v : Directive × List Token} (h : (p.read? line rest).value = some v)
    (qs : List Production) : readDirective line rest (ps ++ qs) = readDirective line rest ps := by
  induction ps with
  | nil => cases hp
  | cons p' ps ih =>
    rcases List.mem_cons.1 hp with rfl | hp
    · exact readDirective_of_taken h _ _
    · exact readDirective_congr (ih hp) p'

/-- Outside of the conditional forms no conditional directive is read. -/
private theorem isConditional_otherProductions (line rest : List Token) :
    (readDirective line rest otherProductions).value.1.isConditional = false := by
  have hforms : ∀ p ∈ otherProductions, conditionalProductions.contains p = false := by decide
  rcases readDirective_cases line rest otherProductions with ⟨p, hp, htaken⟩ | ⟨-, hother⟩
  · rw [Production.isConditional_of_read? htaken, hforms p hp]
  · rw [hother]
    rfl

/-- The forms that are tried in skipped code read a conditional directive as all forms do, and know
no other. -/
private theorem readDirective_tried (line rest : List Token) :
    readDirective line rest (Production.tried true) =
      if (readDirective line rest (Production.tried false)).value.1.isConditional
      then readDirective line rest (Production.tried false)
      else pure (.other, rest) := by
  show readDirective line rest conditionalProductions =
    if (readDirective line rest (conditionalProductions ++ otherProductions)).value.1.isConditional
    then readDirective line rest (conditionalProductions ++ otherProductions)
    else pure (.other, rest)
  rcases readDirective_cases line rest conditionalProductions with
    ⟨p, hp, htaken⟩ | ⟨hrefused, -⟩
  · -- The same form takes the line where all are tried.
    have hconditional := Production.isConditional_of_read? htaken
    rw [List.contains_iff_mem.2 hp] at hconditional
    rw [readDirective_append_of_taken hp htaken, if_pos hconditional]
  · -- What the other forms take is no conditional directive.
    have hnone := readDirective_append_of_refused hrefused []
    rw [List.append_nil] at hnone
    rw [readDirective_append_of_refused hrefused, isConditional_otherProductions, hnone]
    rfl

end Order

/-! ## Lines -/

/-- A line is read by the forms that are tried. -/
theorem parseLine_eq (conditionalOnly : Bool) (line : List Token) :
    parseLine conditionalOnly line = parseLineWith (Production.tried conditionalOnly) line := rfl

/-- A form that fails leaves the position where it was, and no note. -/
private theorem Production.runAt_scan_of_refused {p : Production} {line : List Token} {pos : Nat}
    (h : (p.scan.runAt line pos).value.1 = none) : p.scan.runAt line pos = pure (none, pos) := by
  rw [p.runAt_scan] at h ⊢
  rw [read?_of_refused (Option.map_eq_none_iff.1 h)]
  rfl

/-- A line that starts with `#` can be read, and the tokens that are left are its last ones. -/
private theorem exists_parseLine {line : List Token} (h : line.head?.any Token.isHash = true) :
    ∃ d last, (parseLine false line).value = .ok (⟨line, d⟩, last) ∧ last <:+ line := by
  cases line with
  | nil => cases h
  | cons t rest =>
    have hlast := (reads_scanLine (Production.tried false) h rest).place rfl
    refine ⟨(readDirective (t :: rest) rest (Production.tried false)).value.1, _, ?_,
      hlast.suffix⟩
    rw [parseLine_eq, parseLineWith_of_hash _ h]
    rfl

/-- In skipped code a line is the conditional directive that it is elsewhere, or not known. -/
theorem parseLine_true {line last : List Token} {d : Directive}
    (hread : (parseLine false line).value = .ok (⟨line, d⟩, last)) :
    parseLine true line =
      if d.isConditional then parseLine false line
      else pure (.ok (⟨line, .other⟩, line.tail)) := by
  rw [parseLine_eq] at hread
  cases hhash : line.head?.any Token.isHash with
  -- Without a mark nothing is read, skipped or not.
  | false =>
    rw [parseLineWith_of_not_hash _ hhash] at hread
    cases hread
  | true =>
    cases line with
    | nil => cases hhash
    | cons t rest =>
      rw [parseLineWith_of_hash _ hhash] at hread
      -- What is read with all productions tells what is read with fewer.
      have hd : (readDirective (t :: rest) rest (Production.tried false)).value.1 = d :=
        congrArg (·.1.directive) (Except.ok.inj hread)
      rw [parseLine_eq, parseLine_eq, parseLineWith_of_hash _ hhash,
        parseLineWith_of_hash _ hhash, readDirective_tried, hd]
      split
      · rfl
      · rfl

/-- A line that starts with `#` is read in the same way whatever the order in which forms are tried:
as the same directive, up to the same position, with the same notes. A form that fails leaves the
position where it was. In skipped code a conditional directive is read as elsewhere; any other line
is not known there, and the position is behind the `#`. -/
theorem directive_recognition {line : List Token} (h : line.head?.any Token.isHash = true) :
    (∀ only ps, ps.Perm (Production.tried only) →
      parseLineWith ps line = parseLine only line ∧
      (scanLine ps).runAt line 0 =
        (fun r => Scan.placed line 0 r.toOption) <$> parseLine only line) ∧
    (∀ (p : Production) pos, (p.scan.runAt line pos).value.1 = none →
      p.scan.runAt line pos = pure (none, pos)) ∧
    ∃ d last, (parseLine false line).value = .ok (⟨line, d⟩, last) ∧ last <:+ line ∧
      d.isConditional = (mark? line).isSome ∧
      parseLine true line =
        if d.isConditional then parseLine false line
        else pure (.ok (⟨line, .other⟩, line.tail)) := by
  obtain ⟨d, last, hread, hlast⟩ := exists_parseLine h
  refine ⟨fun only ps hps => ?_, fun p pos => p.runAt_scan_of_refused, d, last, hread, hlast, ?_,
    parseLine_true hread⟩
  · -- By position a line is read as from its tokens, so the order does not matter there either.
    have horder : parseLineWith ps line = parseLine only line := parseLineWith_perm hps line
    exact ⟨horder, horder ▸ runAt_scanLine ps line⟩
  · rw [Directive.isConditional_eq, ← mark_of_parseLine hread]

open Token in
/-- The tokens of `%:ifdef 1`, with the forms in reverse order, and of `#undef 1`, whose form fails
behind its word. -/
theorem directive_recognition_nameless :
    let one := sample .number "1" true
    let test := [sign "%:", word "ifdef", one]
    let removal := [sign "#", word "undef", one]
    (test.head?.any Token.isHash = true ∧ removal.head?.any Token.isHash = true) ∧
    (scanLine (Production.tried false).reverse).runAt test 0 =
      ⟨(some ⟨test, .ifdef none⟩, 2), [.noMacroName "" 1 "ifdef", .extraTokens "%:ifdef1"]⟩ ∧
    parseLine true test = parseLine false test ∧
    Production.undef.scan.runAt removal 1 = pure (none, 1) ∧
    parseLine true removal = pure (.ok (⟨removal, .other⟩, [word "undef", one])) := by
  intro one test removal
  have htest : test.head?.any Token.isHash = true := by decide
  have hremoval : removal.head?.any Token.isHash = true := by decide
  obtain ⟨horder, -, d, last, -, -, hmark, hskipped⟩ := directive_recognition htest
  obtain ⟨-, hfails, d', last', -, -, hmark', hskipped'⟩ := directive_recognition hremoval
  refine ⟨⟨htest, hremoval⟩, ?_, ?_, hfails .undef 1 rfl, ?_⟩
  · -- The forms are tried in the reverse order, and read the same.
    rw [(horder false _ (List.reverse_perm _)).2]
    rfl
  · rw [hskipped, hmark]
    rfl
  · rw [hskipped', hmark']
    rfl

end Preproc
