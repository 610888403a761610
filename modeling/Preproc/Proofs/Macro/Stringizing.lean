import Preproc.Proofs.Lexing.Relexing
import Preproc.Proofs.Samples

/-!
# Stringizing can be undone

Stringizing writes the tokens of an argument one behind the other between quotes. Only literals are
escaped, which is enough: a backslash or a double quote is part of no other token, unknown ones
apart. So the content of the string is the escaped spelling of the tokens. It is closed where it
ends, so the string is read again as one token; and undoing the escapes gives the spelling back.

## Key results

- `Token.unescape_escape`: escapes can be undone
- `Token.closingQuote?_escape`: an escaped text is closed by the first quote behind it
- `stringizedContent_eq`: the content of a stringized argument is its escaped spelling
- `stringize_reversible`: stringizing is a reversible encoding
-/

namespace Preproc

namespace Token

/-- A text in which a backslash before a backslash or a double quote is taken out. -/
def unescape : List Char → List Char
  | '\\' :: '\\' :: cs => '\\' :: unescape cs
  | '\\' :: '"' :: cs => '"' :: unescape cs
  | c :: cs => c :: unescape cs
  | [] => []

/-! ## Escapes -/

theorem escape_append (cs ds : List Char) : escape (cs ++ ds) = escape cs ++ escape ds :=
  List.flatMap_append

private theorem escape_cons_of_special {c : Char} (hc : c = '\\' ∨ c = '"') (cs : List Char) :
    escape (c :: cs) = '\\' :: c :: escape cs := by
  simp [escape, hc]

/-- Any other character stays as it is. -/
private theorem escape_cons_of_plain {c : Char} (hc : ¬(c = '\\' ∨ c = '"')) (cs : List Char) :
    escape (c :: cs) = c :: escape cs := by
  rw [not_or] at hc
  simp [escape, hc]

/-- A text without backslashes and double quotes is not changed. -/
private theorem escape_of_notMem {cs : List Char} (hslash : '\\' ∉ cs) (hquote : '"' ∉ cs) :
    escape cs = cs := by
  induction cs with
  | nil => rfl
  | cons c cs ih =>
    rw [List.mem_cons, not_or] at hslash hquote
    have hplain : ¬(c = '\\' ∨ c = '"') :=
      not_or.2 ⟨Ne.symm hslash.1, Ne.symm hquote.1⟩
    rw [escape_cons_of_plain hplain, ih hslash.2 hquote.2]

/-- Escaping adds nothing but backslashes. -/
private theorem mem_of_mem_escape {c : Char} {cs : List Char} (h : c ∈ escape cs) (hc : c ≠ '\\') :
    c ∈ cs := by
  obtain ⟨d, hd, hmem⟩ := List.mem_flatMap.1 h
  have heq : c = d := by
    split at hmem
    · exact (List.mem_pair.1 hmem).resolve_left hc
    · exact List.mem_singleton.1 hmem
  exact heq ▸ hd

/-- A character that is no backslash is kept. -/
theorem unescape_cons {c : Char} (hc : c ≠ '\\') (cs : List Char) :
    unescape (c :: cs) = c :: unescape cs := by
  rw [unescape]
  · intro rest heq
    exact absurd heq hc
  · intro rest heq
    exact absurd heq hc

/-- Escapes can be undone. -/
theorem unescape_escape (cs : List Char) : unescape (escape cs) = cs := by
  induction cs with
  | nil => rfl
  | cons c cs ih =>
    by_cases hc : c = '\\' ∨ c = '"'
    · rw [escape_cons_of_special hc]
      -- The backslash that was added is taken out again.
      rcases hc with rfl | rfl
      · rw [unescape, ih]
      · rw [unescape, ih]
    · rw [escape_cons_of_plain hc, unescape_cons (not_or.1 hc).1, ih]

/-- An escaped text on one line is closed by the quote behind it, and by no earlier one. -/
theorem closingQuote?_escape {cs : List Char} (h : '\n' ∉ cs) :
    closingQuote? '"' (escape cs ++ ['"']) = some (escape cs ++ ['"']).length := by
  induction cs with
  | nil => rfl
  | cons c cs ih =>
    rw [List.mem_cons, not_or] at h
    have hline : c ≠ '\n' := Ne.symm h.1
    by_cases hc : c = '\\' ∨ c = '"'
    · -- The backslash takes the character behind it along.
      rw [escape_cons_of_special hc, List.cons_append, List.cons_append, closingQuote?,
        if_neg hline, ih h.2, Option.map_some]
      simp only [List.length_cons, Option.some.injEq]
      omega
    · have hplain := not_or.1 hc
      rw [escape_cons_of_plain hc, List.cons_append, closingQuote?_cons hplain.1,
        if_neg hplain.2, if_neg hline, ih h.2, Option.map_some]
      simp only [List.length_cons, Option.some.injEq]
      omega

end Token

/-! ## Tokens -/

/-- No spelling but a literal holds a backslash or a double quote. -/
private theorem Spelled.notMem_of_unquoted {k : Kind} {cs : List Char} (h : Spelled k cs)
    (hstring : k ≠ .string) (hcharacter : k ≠ .character) {c : Char} (hc : c ∈ ['\\', '"']) :
    c ∉ cs := by
  have hwide : c ∈ ['\r', '\n', '\\', '"'] := List.mem_append_right ['\r', '\n'] hc
  cases h with
  | name kind solid digit chars =>
    intro hmem
    have hno : ['\\', '"'].any isNameChar = false := by decide
    exact List.any_eq_false.1 hno c hc (chars c hmem)
  | number digit tail => exact notMem_of_number digit tail hwide
  | fraction digit tail =>
    have hpoint : c ≠ '.' := by
      rintro rfl
      simp at hc
    rw [List.mem_cons, not_or]
    exact ⟨hpoint, notMem_of_number digit tail hwide⟩
  -- A literal is of one of the two kinds that are left out.
  | literal kind known quotes closed =>
    rw [kind, quoteKind] at hstring hcharacter
    split at hstring <;> simp_all
  | punctuator known =>
    -- No punctuator has one of these characters.
    have hall : ∀ p ∈ punctuatorTexts, '\\' ∉ p ∧ '"' ∉ p := by decide
    obtain ⟨hslash, hquote⟩ := hall _ known
    simp only [List.mem_cons, List.not_mem_nil, or_false] at hc
    rcases hc with rfl | rfl
    · exact hslash
    · exact hquote

/-- What lexing a text gives: tokens that are read, and the end token without a text. -/
private theorem read_or_eof_of_mem_stream {file : String} {text : List Char} {t : Token}
    (h : t ∈ (lexText file text).value.stream) : t.Read ∨ t.face = (.eof, "") := by
  rcases List.mem_append.1 h with htoken | heof
  · exact .inl (Token.read_of_mem_lexText htoken)
  · rw [List.mem_singleton.1 heof]
    exact .inr (Cursor.face_eof_tokens _ [])

/-- Where a token is put between quotes, it is escaped: it is a literal, or there is nothing to be
escaped. -/
private theorem sanitized_eq_escape {file : String} {text : List Char} {t : Token}
    (h : t ∈ (lexText file text).value.stream) (hknown : t.kind ≠ .unknown) :
    t.sanitized = Token.escape t.value.toList := by
  rw [Token.sanitized]
  split
  · rfl
  · rename_i hliteral
    simp only [Bool.or_eq_true, decide_eq_true_eq, not_or] at hliteral
    rcases read_or_eof_of_mem_stream h with hread | heof
    · -- Any other known token has nothing to be escaped.
      obtain ⟨hspelled, -⟩ := hread.sound.spelled hliteral.1 hknown
      have hfree : ∀ c ∈ ['\\', '"'], c ∉ t.value.toList :=
        fun c hc => hspelled.notMem_of_unquoted hliteral.1 hliteral.2 hc
      exact (Token.escape_of_notMem (hfree _ (by simp)) (hfree _ (by simp))).symm
    · rw [show t.value = "" from congrArg Prod.snd heof]
      rfl

/-- No token that is read holds a carriage return. -/
private theorem cr_notMem_of_mem_stream {file : String} {text : List Char} {t : Token}
    (h : t ∈ (lexText file text).value.stream) : '\r' ∉ t.value.toList := by
  rcases read_or_eof_of_mem_stream h with ⟨logical, hmem⟩ | heof
  · exact fun hcr => cr_notMem_logicalText logical (subset_of_mem_lexemes hmem hcr)
  · rw [show t.value = "" from congrArg Prod.snd heof]
    simp

/-! ## Stringizing -/

/-- The spelling of tokens, character by character. -/
theorem toList_spelling_cons (t : Token) (ts : List Token) :
    (Token.spelling (t :: ts)).toList =
      t.value.toList ++
        ts.flatMap fun u => if u.prevWhite then ' ' :: u.value.toList else u.value.toList := by
  rw [Token.spelling, String.toList_append, String.toList_join, List.flatMap_map]
  congr 2
  funext u
  split <;> simp

/-- Tokens with spaces between them are escaped one by one: a space needs no escape. -/
private theorem escape_flatMap_spaced {us : List Token}
    (h : ∀ u ∈ us, u.sanitized = Token.escape u.value.toList) :
    (us.flatMap fun u => if u.prevWhite then ' ' :: u.sanitized else u.sanitized) =
      Token.escape
        (us.flatMap fun u => if u.prevWhite then ' ' :: u.value.toList else u.value.toList) := by
  induction us with
  | nil => rfl
  | cons u us ih =>
    obtain ⟨hu, hrest⟩ := List.forall_mem_cons.1 h
    rw [List.flatMap_cons, List.flatMap_cons, Token.escape_append, ih hrest, hu]
    -- A space is not escaped.
    split
    · rw [Token.escape_cons_of_plain (by decide)]
    · rfl

/-- The content of a stringized argument is its escaped spelling, if all its tokens are. -/
theorem stringizedContent_eq {ts : List Token}
    (h : ∀ t ∈ ts, t.sanitized = Token.escape t.value.toList) :
    stringizedContent ts = Token.escape (Token.spelling ts).toList := by
  cases ts with
  | nil => rfl
  | cons t ts =>
    obtain ⟨ht, hts⟩ := List.forall_mem_cons.1 h
    rw [stringizedContent, toList_spelling_cons, Token.escape_append, ht,
      escape_flatMap_spaced hts]

/-- The characters of a spelling are those of its tokens, and spaces. -/
private theorem notMem_spelling {ts : List Token} {c : Char} (hc : c ≠ ' ')
    (h : ∀ t ∈ ts, c ∉ t.value.toList) : c ∉ (Token.spelling ts).toList := by
  cases ts with
  | nil => simp [Token.spelling]
  | cons t ts =>
    obtain ⟨ht, hts⟩ := List.forall_mem_cons.1 h
    rw [toList_spelling_cons, List.mem_append, not_or]
    refine ⟨ht, fun hmem => ?_⟩
    obtain ⟨u, hu, hmem⟩ := List.mem_flatMap.1 hmem
    -- Only spaces are put between tokens.
    split at hmem
    · exact (List.mem_cons.1 hmem).elim hc (hts u hu)
    · exact hts u hu hmem

/-- Stringizing tokens that are read, none of them unknown and all on one line, is a reversible
encoding. The string is read again as one token, a string that is not raw, with the same text; and
undoing the escapes in its content gives the spelling of the tokens, with one space before each but
the first that white space precedes. -/
theorem stringize_reversible {ts : List Token}
    (hread : ∀ t ∈ ts, ∃ file text, t ∈ (lexText file text).value.stream)
    (hknown : ∀ t ∈ ts, t.kind ≠ .unknown) (hline : ∀ t ∈ ts, '\n' ∉ t.value.toList)
    (origin : Token) :
    (∃ u, (relex (stringize ts origin).value.toList).value = [u] ∧ u.kind = .string ∧
      u.isRaw = false ∧ u.value = (stringize ts origin).value) ∧
    Token.unescape (stringize ts origin).content = (Token.spelling ts).toList := by
  -- The content is the escaped spelling.
  have hcontent : stringizedContent ts = Token.escape (Token.spelling ts).toList := by
    apply stringizedContent_eq
    intro t ht
    obtain ⟨file, text, hmem⟩ := hread t ht
    exact sanitized_eq_escape hmem (hknown t ht)
  have hvalue : (stringize ts origin).value.toList =
      '"' :: (Token.escape (Token.spelling ts).toList ++ ['"']) := by
    rw [stringize, String.toList_ofList, hcontent]
  -- So it is closed where it ends, and the whole is the spelling of a string.
  have hspelled : Spelled .string (stringize ts origin).value.toList := by
    rw [hvalue]
    exact @Spelled.literal .string "" _ _ rfl (by decide) (by decide)
      (Token.closingQuote?_escape (notMem_spelling (by decide) hline))
  -- No carriage return comes in, neither from the tokens nor from the escapes.
  have hreturn : '\r' ∉ (stringize ts origin).value.toList := by
    have hspelling : '\r' ∉ (Token.spelling ts).toList := by
      apply notMem_spelling (by decide)
      intro t ht
      obtain ⟨file, text, hmem⟩ := hread t ht
      exact cr_notMem_of_mem_stream hmem
    rw [hvalue]
    simp only [List.mem_cons, List.mem_append, List.not_mem_nil, or_false, not_or]
    exact ⟨by decide, fun hcr => hspelling (Token.mem_of_mem_escape hcr (by decide)), by decide⟩
  obtain ⟨hencoding, hinner⟩ := Token.encoding_content_of_value (e := []) (by simp) hvalue
  constructor
  · obtain ⟨u, hone, hkind, htext⟩ := relex_of_spelled hspelled hreturn
    rw [String.ofList_toList] at htext
    refine ⟨u, hone, hkind, ?_, htext⟩
    rw [Token.isRaw, Token.encoding, htext]
    show (decide ((stringize ts origin).encoding.getLast? = some 'R')) = false
    rw [hencoding]
    rfl
  · rw [hinner, Token.unescape_escape]

namespace Stringizing

/-- The tokens of a text with quotes and backslashes in literals of all sorts. -/
def tokens : List Token :=
  tokensOf "L'\"' + R\"x(\\\")x\"  \"\\\\\"1'0"

/-- A name to be replaced. -/
def origin : Token :=
  .word "f"

end Stringizing

open Stringizing in
/-- A character, a raw string and a string are read back from the string that they are written
to. -/
theorem stringize_reversible_literals :
    (tokens.map (·.value) = ["L'\"'", "+", "R\"x(\\\")x\"", "\"\\\\\"", "1'0"] ∧
      (∀ t ∈ tokens, t.kind ≠ .unknown) ∧ ∀ t ∈ tokens, '\n' ∉ t.value.toList) ∧
    (stringize tokens origin).value =
      "\"L'\\\"' + R\\\"x(\\\\\\\")x\\\" \\\"\\\\\\\\\\\"1'0\"" ∧
    (∃ u, (relex (stringize tokens origin).value.toList).value = [u] ∧ u.kind = .string ∧
      u.isRaw = false ∧ u.value = (stringize tokens origin).value) ∧
    Token.unescape (stringize tokens origin).content =
      "L'\"' + R\"x(\\\")x\" \"\\\\\"1'0".toList := by
  have hall : (tokens.map (·.value) = ["L'\"'", "+", "R\"x(\\\")x\"", "\"\\\\\"", "1'0"] ∧
      (∀ t ∈ tokens, t.kind ≠ .unknown) ∧ ∀ t ∈ tokens, '\n' ∉ t.value.toList) ∧
      (stringize tokens origin).value =
        "\"L'\\\"' + R\\\"x(\\\\\\\")x\\\" \\\"\\\\\\\\\\\"1'0\"" ∧
      (Token.spelling tokens).toList = "L'\"' + R\"x(\\\")x\" \"\\\\\"1'0".toList := by
    decide +kernel
  obtain ⟨hlook, hvalue, hspelling⟩ := hall
  -- The tokens are those of a text.
  have hread : ∀ t ∈ tokens, ∃ file text, t ∈ (lexText file text).value.stream :=
    fun t ht => ⟨"t.c", _, List.mem_append_left _ ht⟩
  obtain ⟨hone, hundone⟩ := stringize_reversible hread hlook.2.1 hlook.2.2 origin
  exact ⟨hlook, hvalue, hone, hundone.trans hspelling⟩

end Preproc
