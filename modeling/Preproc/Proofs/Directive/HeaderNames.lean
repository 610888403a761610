import Preproc.Directive.Grammar
import Preproc.Proofs.Samples

/-!
# Header names

A header is named between angle brackets, by the text of the tokens up to the first bracket that
closes, or by a string literal without an encoding. `HeaderTokens` is this grammar: brackets with
nothing between them name no header, and neither does an empty literal.

Header names are read by the grammar, with one exception. Brackets without a text between them are
passed over, so a literal behind them is taken for the name that was asked for (`PassedOver`). Where
all tokens have a text, these are the brackets with nothing between them and a literal behind.

## Key results

- `readBracketed?_eq_some_iff`, `readQuotedHeader?_eq_some_iff`: the two forms that are read
- `passedOver_iff`: what is passed over where all tokens have a text
- `headerName_grammar`: when a header name is read by the grammar
- `not_headerReadsByGrammar_empty`: a header name behind empty brackets
-/

namespace Preproc

/-! ## The grammar -/

/-- Tokens that start with others between angle brackets, those, and the tokens behind. -/
inductive Bracketed : List Token → List Token → List Token → Prop
  | mk {o c : Token} {ts rest : List Token} (opening : o.isPunctuator "<" = true)
      (inside : ∀ t ∈ ts, t.isPunctuator ">" = false) (closing : c.isPunctuator ">" = true) :
      Bracketed (o :: (ts ++ c :: rest)) ts rest

/-- Tokens that start with a string literal that names a header, the name, and the tokens behind. -/
inductive QuotedHeader : List Token → HeaderName → List Token → Prop
  | mk {t : Token} {rest : List Token} (kind : t.kind = .string) (plain : t.encoding = [])
      (solid : t.content ≠ []) : QuotedHeader (t :: rest) ⟨String.ofList t.content, false⟩ rest

/-- The text of tokens in a row: a space stands where white space separates two of them. -/
def rowText (t : Token) (ts : List Token) : String :=
  t.value ++ String.join (ts.map fun u => (if u.prevWhite then " " else "") ++ u.value)

/-- Tokens that start with a header name, the name, and the tokens behind. -/
inductive HeaderTokens : List Token → HeaderName → List Token → Prop
  | system {ts inside rest : List Token} {t : Token} (brackets : Bracketed ts (t :: inside) rest) :
      HeaderTokens ts ⟨rowText t inside, true⟩ rest
  | quoted {ts rest : List Token} {h : HeaderName} (literal : QuotedHeader ts h rest) :
      HeaderTokens ts h rest

/-- A header name is read by the grammar: as the one that the tokens start with, and not at all if
they start with none. -/
structure HeaderReadsByGrammar (ts : List Token) : Prop where
  named (h : HeaderName) (rest : List Token) :
    readHeaderName ts = .ok (h, rest) ↔ HeaderTokens ts h rest
  unnamed (none : ¬∃ h rest, HeaderTokens ts h rest) : readHeaderName ts = .error .notHeaderName

/-- Tokens that start with angle brackets without a text between them, which are passed over. -/
inductive PassedOver : List Token → Prop
  | empty {ts rest rest' : List Token} {h : HeaderName} (brackets : Bracketed ts [] rest)
      (literal : QuotedHeader rest h rest') : PassedOver ts
  | blank {ts inside rest : List Token} {t : Token} (brackets : Bracketed ts (t :: inside) rest)
      (text : rowText t inside = "") : PassedOver ts

/-! ## The two forms -/

/-- Brackets are read up to the first that closes. -/
theorem Bracketed.readBracketed?_eq {ts inside rest : List Token} (h : Bracketed ts inside rest) :
    readBracketed? ts = some (inside, rest) := by
  obtain @⟨o, c, _, _, opening, hinside, closing⟩ := h
  have hall : ∀ t ∈ inside, (!t.isPunctuator ">") = true := fun t ht => by rw [hinside t ht]; rfl
  rw [readBracketed?, if_pos opening, List.dropWhile_append_of_pos hall,
    List.takeWhile_append_of_pos hall, List.dropWhile_cons, List.takeWhile_cons, closing]
  simp

/-- What is read as brackets are brackets. -/
theorem readBracketed?_eq_some_iff {ts inside rest : List Token} :
    readBracketed? ts = some (inside, rest) ↔ Bracketed ts inside rest := by
  refine ⟨fun h => ?_, Bracketed.readBracketed?_eq⟩
  unfold readBracketed? at h
  split at h
  · cases h
  · rename_i o ts
    split at h
    · rename_i opening
      split at h
      · cases h
      · rename_i c rest' hdrop
        obtain ⟨rfl, rfl⟩ := Prod.mk.inj (Option.some.inj h)
        have hsplit : ts.takeWhile (!·.isPunctuator ">") ++ c :: rest' = ts :=
          hdrop ▸ List.takeWhile_append_dropWhile
        have hinside : ∀ t ∈ ts.takeWhile (!·.isPunctuator ">"), t.isPunctuator ">" = false :=
          fun t ht => by simpa using List.all_eq_true.1 List.all_takeWhile t ht
        have hclosing : c.isPunctuator ">" = true := by
          have hstops := List.head?_dropWhile_not (!·.isPunctuator ">") ts
          simpa [hdrop] using hstops
        -- The list is put together again from its three parts.
        have hbrackets := @Bracketed.mk o c _ rest' opening hinside hclosing
        rwa [hsplit] at hbrackets
    · cases h

/-- What is read as a literal that names a header is one. -/
theorem readQuotedHeader?_eq_some_iff {ts rest : List Token} {h : HeaderName} :
    readQuotedHeader? ts = some (h, rest) ↔ QuotedHeader ts h rest := by
  constructor
  · intro hread
    unfold readQuotedHeader? at hread
    split at hread
    · cases hread
    · split at hread
      · rename_i hcond
        -- The three conditions of the reader are those of the grammar.
        obtain ⟨rfl, rfl⟩ := Prod.mk.inj (Option.some.inj hread)
        simp only [Bool.and_eq_true, decide_eq_true_eq, List.isEmpty_iff, Bool.not_eq_true',
          List.isEmpty_eq_false_iff] at hcond
        exact .mk hcond.1.1 hcond.1.2 hcond.2
      · cases hread
  · rintro ⟨kind, plain, solid⟩
    rw [readQuotedHeader?, if_pos]
    simp [kind, plain, solid]

/-- The text of a row of tokens is spelled with a space where white space was. -/
theorem Token.spelling_cons (t : Token) (ts : List Token) :
    Token.spelling (t :: ts) = rowText t ts := by
  have hspace : ∀ u : Token, (if u.prevWhite then " " ++ u.value else u.value) =
      (if u.prevWhite then " " else "") ++ u.value := by
    intro u
    split
    · rfl
    · rw [String.empty_append]
  simp only [Token.spelling, rowText, hspace]

/-- No list of tokens has both forms. -/
private theorem Bracketed.not_quotedHeader {ts inside rest rest' : List Token} {h : HeaderName}
    (hbrackets : Bracketed ts inside rest) : ¬QuotedHeader ts h rest' := by
  obtain ⟨opening, -, -⟩ := hbrackets
  rintro ⟨kind, -, -⟩
  simp [Token.isPunctuator, kind] at opening

private theorem Bracketed.unique {ts inside rest inside' rest' : List Token}
    (h : Bracketed ts inside rest) (h' : Bracketed ts inside' rest') :
    inside = inside' ∧ rest = rest' :=
  Prod.mk.inj (Option.some.inj (h.readBracketed?_eq.symm.trans h'.readBracketed?_eq))

/-- What stands between the brackets is among the tokens. -/
private theorem Bracketed.mem_of_mem_inside {ts inside rest : List Token}
    (h : Bracketed ts inside rest) {t : Token} (ht : t ∈ inside) : t ∈ ts := by
  obtain ⟨-, -, -⟩ := h
  exact List.mem_cons_of_mem _ (List.mem_append_left _ ht)

/-- A literal never names a system header. -/
theorem QuotedHeader.system_eq {ts rest : List Token} {h : HeaderName}
    (hquoted : QuotedHeader ts h rest) : h.system = false := by
  cases hquoted
  rfl

/-- A literal names a header by a text that is not empty. -/
private theorem QuotedHeader.path_ne_empty {ts rest : List Token} {h : HeaderName}
    (hquoted : QuotedHeader ts h rest) : h.path ≠ "" := by
  obtain ⟨-, -, solid⟩ := hquoted
  exact fun hpath => solid (String.ofList_eq_empty_iff.1 hpath)

/-! ## Reading header names -/

/-- A literal that names a header, and nothing else. -/
def readLiteral (ts : List Token) : Except ParseError (HeaderName × List Token) :=
  (readQuotedHeader? ts).elim (.error .notHeaderName) .ok

/-- A literal is read just if one is there. -/
theorem readLiteral_eq_ok_iff {ts rest : List Token} {h : HeaderName} :
    readLiteral ts = .ok (h, rest) ↔ QuotedHeader ts h rest := by
  rw [← readQuotedHeader?_eq_some_iff, readLiteral]
  cases readQuotedHeader? ts <;> simp

/-- All that reading a header name can be: brackets with a text between them are its name, and
otherwise a literal is looked for, behind brackets if there are any. -/
theorem readHeaderName_cases (ts : List Token) :
    (∃ t inside rest, Bracketed ts (t :: inside) rest ∧ rowText t inside ≠ "" ∧
      readHeaderName ts = .ok (⟨rowText t inside, true⟩, rest)) ∨
    (∃ inside rest, Bracketed ts inside rest ∧ Token.spelling inside = "" ∧
      readHeaderName ts = readLiteral rest) ∨
    (¬∃ inside rest, Bracketed ts inside rest) ∧ readHeaderName ts = readLiteral ts := by
  cases hread : readBracketed? ts with
  | none =>
    refine .inr (.inr ⟨?_, ?_⟩)
    · rintro ⟨inside, rest, hbrackets⟩
      cases hread.symm.trans hbrackets.readBracketed?_eq
    · simp only [readHeaderName, hread, readLiteral]
      cases readQuotedHeader? ts <;> rfl
  | some r =>
    obtain ⟨inside, rest⟩ := r
    have hbrackets := readBracketed?_eq_some_iff.1 hread
    by_cases htext : Token.spelling inside = ""
    · refine .inr (.inl ⟨inside, rest, hbrackets, htext, ?_⟩)
      simp only [readHeaderName, hread, htext, readLiteral]
      cases readQuotedHeader? rest <;> rfl
    · -- Between the brackets stands a token, since nothing has no text.
      cases inside with
      | nil => exact absurd rfl htext
      | cons t inside =>
        rw [Token.spelling_cons] at htext
        refine .inl ⟨t, inside, rest, hbrackets, htext, ?_⟩
        simp only [readHeaderName, hread, Token.spelling_cons, ne_eq, htext, not_false_eq_true,
          if_true]

/-- The header names that are read are those of the grammar that have a text, and literals behind
brackets without one. -/
theorem readHeaderName_eq_ok_iff {ts rest : List Token} {h : HeaderName} :
    readHeaderName ts = .ok (h, rest) ↔
      (HeaderTokens ts h rest ∧ h.path ≠ "") ∨
      ∃ inside more, Bracketed ts inside more ∧ Token.spelling inside = "" ∧
        QuotedHeader more h rest := by
  -- Brackets are unique and exclude a literal, so each case leaves one form.
  rcases readHeaderName_cases ts with ⟨t, inside, rest', hbrackets, htext, hread⟩ |
    ⟨inside, more, hbrackets, htext, hread⟩ | ⟨hnone, hread⟩
  · rw [hread, Except.ok.injEq, Prod.mk.injEq]
    constructor
    · rintro ⟨rfl, rfl⟩
      exact .inl ⟨.system hbrackets, htext⟩
    · rintro (⟨hsystem | hquoted, -⟩ | ⟨inside', more, hother, hblank, -⟩)
      · obtain ⟨heq, rfl⟩ := hbrackets.unique hsystem
        obtain ⟨rfl, rfl⟩ := List.cons.inj heq
        exact ⟨rfl, rfl⟩
      · exact absurd hquoted hbrackets.not_quotedHeader
      · obtain ⟨rfl, -⟩ := hbrackets.unique hother
        exact absurd ((Token.spelling_cons t inside).symm.trans hblank) htext
  · rw [hread, readLiteral_eq_ok_iff]
    constructor
    · exact fun hquoted => .inr ⟨inside, more, hbrackets, htext, hquoted⟩
    · rintro (⟨hheader, hpath⟩ | ⟨inside', more', hother, -, hquoted⟩)
      · cases hheader with
        | system hsystem =>
          obtain ⟨rfl, -⟩ := hbrackets.unique hsystem
          exact absurd ((Token.spelling_cons _ _).symm.trans htext) hpath
        | quoted hquoted => exact absurd hquoted hbrackets.not_quotedHeader
      · obtain ⟨-, rfl⟩ := hbrackets.unique hother
        exact hquoted
  · rw [hread, readLiteral_eq_ok_iff]
    constructor
    · exact fun hquoted => .inl ⟨.quoted hquoted, hquoted.path_ne_empty⟩
    · rintro (⟨hsystem | hquoted, -⟩ | ⟨inside, more, hother, -, -⟩)
      · exact absurd ⟨_, _, hsystem⟩ hnone
      · exact hquoted
      · exact absurd ⟨_, _, hother⟩ hnone

/-- There is one way only to fail. -/
private theorem readHeaderName_error {ts : List Token} (h : ∀ r, readHeaderName ts ≠ .ok r) :
    readHeaderName ts = .error .notHeaderName := by
  -- Only where a literal is looked for can reading fail, and it fails in this way.
  have hliteral : ∀ us, readHeaderName ts = readLiteral us →
      readHeaderName ts = .error .notHeaderName := by
    intro us hread
    rw [readLiteral] at hread
    cases hquoted : readQuotedHeader? us with
    | none => rw [hread, hquoted]; rfl
    | some r => exact absurd (hread.trans (by rw [hquoted]; rfl)) (h r)
  rcases readHeaderName_cases ts with ⟨t, inside, rest, -, -, hread⟩ | ⟨_, rest, -, -, hread⟩ |
    ⟨-, hread⟩
  · exact absurd hread (h _)
  · exact hliteral rest hread
  · exact hliteral ts hread

/-! ## The grammar and what is passed over -/

/-- What is passed over is not read by the grammar. -/
private theorem PassedOver.not_headerReadsByGrammar {ts : List Token} (h : PassedOver ts) :
    ¬HeaderReadsByGrammar ts := by
  intro hgrammar
  cases h with
  -- The literal is read, but the tokens start with brackets.
  | empty brackets literal =>
    have hread := readHeaderName_eq_ok_iff.2 (.inr ⟨_, _, brackets, rfl, literal⟩)
    cases (hgrammar.named _ _).1 hread with
    | system hsystem => cases (brackets.unique hsystem).1
    | quoted hquoted => exact brackets.not_quotedHeader hquoted
  -- The brackets are a header name, but it is not read.
  | blank brackets text =>
    have hread := (hgrammar.named _ _).2 (.system brackets)
    rcases readHeaderName_eq_ok_iff.1 hread with ⟨-, hpath⟩ | ⟨_, _, -, -, hquoted⟩
    · exact hpath text
    · cases hquoted.system_eq

/-- What is not passed over is read by the grammar. -/
private theorem headerReadsByGrammar_of_not_passedOver {ts : List Token} (h : ¬PassedOver ts) :
    HeaderReadsByGrammar ts := by
  have hnamed : ∀ name rest, readHeaderName ts = .ok (name, rest) ↔ HeaderTokens ts name rest := by
    intro name rest
    rw [readHeaderName_eq_ok_iff]
    constructor
    · -- A literal behind brackets would have been passed over to.
      rintro (⟨hheader, -⟩ | ⟨inside, more, brackets, blank, literal⟩)
      · exact hheader
      · cases inside with
        | nil => exact absurd (.empty brackets literal) h
        | cons t inside =>
          exact absurd (.blank brackets ((Token.spelling_cons t inside).symm.trans blank)) h
    · -- Brackets without a text would have been passed over.
      intro hheader
      refine .inl ⟨hheader, ?_⟩
      cases hheader with
      | system brackets => exact fun text => h (.blank brackets text)
      | quoted literal => exact literal.path_ne_empty
  refine ⟨hnamed, fun hnone => readHeaderName_error ?_⟩
  rintro ⟨name, rest⟩ hread
  exact hnone ⟨name, rest, (hnamed name rest).1 hread⟩

/-- Where all tokens have a text, a literal behind empty brackets is all that is passed over to. -/
theorem passedOver_iff {ts : List Token} (htext : ∀ t ∈ ts, t.value ≠ "") :
    PassedOver ts ↔ ∃ rest h rest', Bracketed ts [] rest ∧ QuotedHeader rest h rest' := by
  constructor
  · intro h
    cases h with
    | empty brackets literal => exact ⟨_, _, _, brackets, literal⟩
    -- A name that spells nothing would need tokens without text.
    | blank brackets text =>
      have hmem := brackets.mem_of_mem_inside List.mem_cons_self
      exact absurd (String.append_eq_empty_iff.1 text).1 (htext _ hmem)
  · rintro ⟨rest, h, rest', brackets, literal⟩
    exact .empty brackets literal

/-- A header name is read by the grammar exactly if no brackets are passed over. Where they are, the
name is that of the literal behind them. Nothing else is read as a header name. -/
theorem headerName_grammar (ts : List Token) :
    (HeaderReadsByGrammar ts ↔ ¬PassedOver ts) ∧
    (∀ h rest, readHeaderName ts = .ok (h, rest) ↔
      (HeaderTokens ts h rest ∧ h.path ≠ "") ∨
      ∃ inside more, Bracketed ts inside more ∧ Token.spelling inside = "" ∧
        QuotedHeader more h rest) ∧
    ((∀ r, readHeaderName ts ≠ .ok r) → readHeaderName ts = .error .notHeaderName) ∧
    ((∀ t ∈ ts, t.value ≠ "") →
      (PassedOver ts ↔ ∃ rest h rest', Bracketed ts [] rest ∧ QuotedHeader rest h rest')) := by
  refine ⟨⟨?_, headerReadsByGrammar_of_not_passedOver⟩, fun _ _ => readHeaderName_eq_ok_iff,
    readHeaderName_error, passedOver_iff⟩
  intro hgrammar hpassed
  exact hpassed.not_headerReadsByGrammar hgrammar

open Token in
/-- The tokens of `< a  b > "c"`. -/
theorem headerName_grammar_spaced :
    let ts := [sample .punctuator "<" false, sample .identifier "a" true,
      sample .identifier "b" true, sample .punctuator ">" true, sample .string "\"c\"" true]
    (∀ t ∈ ts, t.value ≠ "") ∧ HeaderReadsByGrammar ts ∧
    readHeaderName ts = .ok (⟨"a b", true⟩, [sample .string "\"c\"" true]) := by
  intro ts
  have htext : ∀ t ∈ ts, t.value ≠ "" := by decide
  have hinside : ∀ t ∈ [sample .identifier "a" true, sample .identifier "b" true],
      t.isPunctuator ">" = false := by decide
  -- What stands between the brackets is not empty, so it is a header name.
  have hbrackets : Bracketed ts [sample .identifier "a" true, sample .identifier "b" true]
      [sample .string "\"c\"" true] := .mk rfl hinside rfl
  obtain ⟨hgrammar, hread, -, hpassed⟩ := headerName_grammar ts
  refine ⟨htext, hgrammar.2 fun h => ?_, (hread _ _).2 (.inl ⟨.system hbrackets, by decide⟩)⟩
  obtain ⟨rest, name, rest', hempty, -⟩ := (hpassed htext).1 h
  cases (hbrackets.unique hempty).1

open Token in
/-- The tokens of `<> "a.h"`, which name no header. -/
theorem not_headerReadsByGrammar_empty :
    let ts := [sample .punctuator "<" false, sample .punctuator ">" false,
      sample .string "\"a.h\"" true]
    (¬∃ h rest, HeaderTokens ts h rest) ∧ readHeaderName ts = .ok (⟨"a.h", false⟩, []) ∧
    ¬HeaderReadsByGrammar ts := by
  intro ts
  -- Nothing stands between the brackets, and a literal behind them.
  have hbrackets : Bracketed ts [] [sample .string "\"a.h\"" true] :=
    @Bracketed.mk _ _ [] _ rfl (by simp) rfl
  have hliteral : QuotedHeader [sample .string "\"a.h\"" true] ⟨"a.h", false⟩ [] :=
    .mk rfl (by decide) (by decide)
  refine ⟨?_, readHeaderName_eq_ok_iff.2 (.inr ⟨[], _, hbrackets, rfl, hliteral⟩),
    (PassedOver.empty hbrackets hliteral).not_headerReadsByGrammar⟩
  rintro ⟨h, rest, hsystem | hquoted⟩
  · cases (hbrackets.unique hsystem).1
  · exact hbrackets.not_quotedHeader hquoted

end Preproc
