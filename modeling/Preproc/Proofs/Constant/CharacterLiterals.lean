import Preproc.Proofs.Constant.Digits
import Preproc.Proofs.Expression.Arithmetic

/-!
# Character literals

Between the quotes of a character literal stand characters and escapes, each for one code. A
hexadecimal escape goes on as long as digits follow, and an octal one takes no more than three, so
what follows an escape must not be a digit that it would take. `CharacterText` says which texts
write which codes.

A literal with a single code is worth that code; without an encoding, the codes of the upper half of
a byte are negative. Several codes are the bytes of a number, the first one on top, of which the
last 64 bits count.

## Key results

- `CharacterText.characterCodes_eq`: the codes are read as they are written
- `CharacterText.exists_of_codes`: all codes can be written
- `Constant.character_decodes`: what a literal is worth
-/

namespace Preproc

/-! ## Escapes as they are written -/

/-- The escapes of a single letter or sign, and the characters that they stand for. -/
def letterEscapes : List (Char × Char) :=
  [('n', '\n'), ('t', '\t'), ('r', '\r'), ('a', '\x07'), ('b', '\x08'), ('f', '\x0c'),
   ('v', '\x0b'), ('e', '\x1b'), ('\\', '\\'), ('\'', '\''), ('"', '"'), ('?', '?')]

/-- The text does not go on with a digit of the base. -/
def NoDigitNext (base : Nat) (cs : List Char) : Prop :=
  ∀ d : Digit base, cs.head? ≠ some d.char

/-- The text between the quotes of a character literal, and the codes that it writes. -/
inductive CharacterText : List Char → List Nat → Prop
  | nil : CharacterText [] []
  | plain {c : Char} {cs : List Char} {codes : List Nat} (char : c ≠ '\\')
      (rest : CharacterText cs codes) : CharacterText (c :: cs) (c.toNat :: codes)
  | letter {e : Char × Char} {cs : List Char} {codes : List Nat} (mem : e ∈ letterEscapes)
      (rest : CharacterText cs codes) : CharacterText ('\\' :: e.1 :: cs) (e.2.toNat :: codes)
  | octal {ds : List (Digit 8)} {cs : List Char} {codes : List Nat} (pos : 1 ≤ ds.length)
      (le : ds.length ≤ 3) (next : ds.length < 3 → NoDigitNext 8 cs)
      (rest : CharacterText cs codes) :
      CharacterText ('\\' :: (Digit.chars ds ++ cs)) (Digit.number ds :: codes)
  | hexadecimal {x : Char} {ds : List (Digit 16)} {cs : List Char} {codes : List Nat}
      (mark : x = 'x' ∨ x = 'X') (pos : 1 ≤ ds.length) (next : NoDigitNext 16 cs)
      (rest : CharacterText cs codes) :
      CharacterText ('\\' :: x :: (Digit.chars ds ++ cs)) (Digit.number ds :: codes)

/-! ## Reading escapes -/

namespace Constant

variable {base : Nat}

private theorem isDigitIn_char (hbase : base ≤ 16) (d : Digit base) :
    isDigitIn base d.char = true := by
  rw [isDigitIn, Digit.digitIn?_char hbase, Option.isSome_some]

/-- A text goes on with a digit just if its first character is read as one. -/
theorem noDigitNext_iff (hbase : base ≤ 16) {cs : List Char} :
    NoDigitNext base cs ↔ cs.head?.any (isDigitIn base) = false := by
  cases cs with
  | nil => simp [NoDigitNext]
  | cons c cs =>
    rw [List.head?_cons, Option.any_some, ← Bool.not_eq_true]
    constructor
    · -- A character that is a digit is the one of some `Digit`.
      intro h hdigit
      obtain ⟨d, rfl⟩ := Digit.exists_char_eq hbase hdigit
      exact h d rfl
    · intro h d heq
      exact h (Option.some.inj heq ▸ isDigitIn_char hbase d)

/-- Digits are read to the last one. -/
private theorem takeWhile_isDigitIn (hbase : base ≤ 16) (ds : List (Digit base)) {cs : List Char}
    (h : NoDigitNext base cs) : (Digit.chars ds ++ cs).takeWhile (isDigitIn base) =
      Digit.chars ds := by
  -- All of the digits are taken, and what follows is none.
  have hdigits : ∀ c ∈ Digit.chars ds, isDigitIn base c = true :=
    fun c hc => Digit.isSome_digitIn?_of_mem hbase hc
  rw [List.takeWhile_append_of_pos hdigits]
  cases cs with
  | nil => simp
  | cons c cs =>
    rw [noDigitNext_iff hbase, List.head?_cons, Option.any_some] at h
    rw [List.takeWhile_cons, h]
    simp

/-- The characters of digits are worth the number that the digits write. -/
private theorem digitsValue_chars (hbase : base ≤ 16) (ds : List (Digit base)) :
    digitsValue base (Digit.chars ds) = Digit.number ds := by
  -- Both are folds over the digits, from the first to the last.
  rw [digitsValue, Digit.chars, List.foldl_map, Digit.number_eq_foldl, List.foldl_map]
  simp only [Digit.digitValue?_char hbase, Option.getD_some]

/-- The escape of a letter or sign takes one character. -/
private theorem readEscape_letter {e : Char × Char} (he : e ∈ letterEscapes) (cs : List Char) :
    readEscape (e.1 :: cs) = .ok (e.2.toNat, 1) := by
  have hall : (letterEscapes.all fun e => simpleEscape? e.1 = some e.2.toNat) = true := by decide
  have hcode : simpleEscape? e.1 = some e.2.toNat := by
    simpa using List.all_eq_true.1 hall e he
  rw [readEscape, hcode]

/-- A hexadecimal escape takes its mark and all digits that follow. -/
private theorem readEscape_hexadecimal {x : Char} (hx : x = 'x' ∨ x = 'X') {ds : List (Digit 16)}
    (hds : 1 ≤ ds.length) {cs : List Char} (h : NoDigitNext 16 cs) :
    readEscape (x :: (Digit.chars ds ++ cs)) = .ok (Digit.number ds, 1 + ds.length) := by
  -- The mark is no simple escape, and there is a digit.
  have hsimple : simpleEscape? x = none := by
    rcases hx with rfl | rfl <;> rfl
  have hnonempty : (Digit.chars ds).isEmpty = false := by
    cases ds with
    | nil => cases hds
    | cons d ds => rfl
  rw [readEscape, hsimple]
  simp only [takeWhile_isDigitIn (Nat.le_refl 16) ds h, hnonempty,
    digitsValue_chars (Nat.le_refl 16), Digit.length_chars]
  rw [if_pos (by simpa using hx), if_neg (by decide)]

/-- An octal escape takes its digits, of which it has at most three. -/
private theorem readEscape_octal {ds : List (Digit 8)} (hpos : 1 ≤ ds.length) (hle : ds.length ≤ 3)
    {cs : List Char} (h : ds.length < 3 → NoDigitNext 8 cs) :
    readEscape (Digit.chars ds ++ cs) = .ok (Digit.number ds, ds.length) := by
  have hbase : 8 ≤ 16 := by decide
  have hthree : (Digit.chars ds ++ cs).take 3 = Digit.chars ds ++ cs.take (3 - ds.length) := by
    rw [List.take_append, List.take_of_length_le (by simpa using hle), Digit.length_chars]
  -- Behind three digits nothing is looked at.
  have hnext : NoDigitNext 8 (cs.take (3 - ds.length)) := by
    intro d
    rw [List.head?_take]
    split
    · simp
    · exact h (by omega) d
  cases ds with
  | nil => cases hpos
  | cons d ds =>
    -- A digit starts neither of the other two kinds of escape.
    have hd : simpleEscape? d.char = none ∧ d.char ≠ 'x' ∧ d.char ≠ 'X' :=
      Digit.char_induction (p := fun c _ => simpleEscape? c = none ∧ c ≠ 'x' ∧ c ≠ 'X')
        (by decide) (Nat.le_refl 8) d
    have hcons : d.char :: (Digit.chars ds ++ cs) = Digit.chars (d :: ds) ++ cs := rfl
    rw [← hcons, readEscape, hd.1]
    simp only [hcons, hthree, takeWhile_isDigitIn hbase (d :: ds) hnext, digitsValue_chars hbase,
      Digit.length_chars]
    rw [if_neg (by simp [hd.2]), if_pos (isDigitIn_char hbase d)]

/-! ## Reading codes -/

/-- Behind an escape, reading goes on with what the escape did not take. -/
private theorem characterCodes_escape {cs : List Char} {code n : Nat} {codes : List Nat}
    (hescape : readEscape cs = .ok (code, n)) (hrest : characterCodes (cs.drop n) = .ok codes) :
    characterCodes ('\\' :: cs) = .ok (code :: codes) := by
  rw [characterCodes, if_pos rfl, hescape]
  show (characterCodes (cs.drop n) >>= fun codes => pure (code :: codes)) = _
  rw [hrest]
  rfl

end Constant

namespace CharacterText

open Constant

/-- The codes are read as they are written. -/
theorem characterCodes_eq {cs : List Char} {codes : List Nat} (h : CharacterText cs codes) :
    characterCodes cs = .ok codes := by
  induction h with
  | nil => rw [characterCodes]
  | plain char _ ih =>
    rw [characterCodes, if_neg char, ih]
    rfl
  | letter mem _ ih => exact characterCodes_escape (readEscape_letter mem _) ih
  -- An escape is read as far as its digits go.
  | octal pos le next _ ih =>
    refine characterCodes_escape (readEscape_octal pos le next) ?_
    rwa [← Digit.length_chars, List.drop_left]
  | @hexadecimal x ds cs codes mark pos next _ ih =>
    refine characterCodes_escape (readEscape_hexadecimal mark pos next) ?_
    rwa [Nat.add_comm, List.drop_succ_cons, ← Digit.length_chars, List.drop_left]

/-- All codes can be written, for one with hexadecimal escapes. -/
theorem exists_of_codes (codes : List Nat) : ∃ cs, CharacterText cs codes := by
  -- The text starts with a backslash or ends, so no digit follows an escape.
  suffices ∃ cs, CharacterText cs codes ∧ NoDigitNext 16 cs from
    this.imp fun _ h => h.1
  induction codes with
  | nil => exact ⟨[], .nil, by simp [NoDigitNext]⟩
  | cons code codes ih =>
    obtain ⟨cs, hcs, hnext⟩ := ih
    obtain ⟨d, ds, rfl, -⟩ := Digit.exists_number_eq (show 1 < 16 by decide) code
    exact ⟨_, .hexadecimal (.inl rfl) (Nat.le_add_left 1 _) hnext hcs,
      (noDigitNext_iff (Nat.le_refl 16)).2 rfl⟩

end CharacterText

/-! ## What literals are worth -/

namespace Constant

/-- A literal with codes is worth what they are; which it is depends on how many there are. -/
private theorem character_of_codes {encoding body : List Char} {codes : List Nat}
    (hencoding : '\'' ∉ encoding) (hbody : body ≠ []) (hcodes : characterCodes body = .ok codes) :
    character (String.ofList (encoding ++ '\'' :: (body ++ ['\'']))) =
      if codes.length = 1 then singleCode encoding.isEmpty (codes.headD 0)
      else .ok (combineCodes codes) := by
  -- The encoding is what stands before the first quote.
  have htake : (encoding ++ '\'' :: (body ++ ['\''])).takeWhile (· ≠ '\'') = encoding := by
    have hfree : ∀ c ∈ encoding, decide (c ≠ '\'') = true :=
      fun c hc => decide_eq_true fun h => hencoding (h ▸ hc)
    rw [List.takeWhile_append_of_pos hfree]
    simp
  -- An empty body is refused before its codes are read.
  obtain ⟨c, cs, rfl⟩ := List.exists_cons_of_ne_nil hbody
  unfold character
  simp only [String.toList_ofList, htake, List.drop_left, List.dropLast_concat, hcodes]
  rcases codes with _ | ⟨code, _ | ⟨code', codes⟩⟩
  · rfl
  · rfl
  · rfl

/-- A code that fits a signed word is kept, but for the upper half of a byte without encoding. -/
private theorem toInt_singleCode (plain : Bool) {code : Nat} (h : code < 2 ^ 63) :
    ∃ w, singleCode plain code = .ok w ∧ w.unsigned = false ∧
      w.toInt = if plain = true ∧ 128 ≤ code ∧ code < 256 then (code : Int) - 256 else code := by
  -- Both values are checked against the same bound, and only from above.
  have hkeep : ∀ n : Int, -0x8000000000000000 ≤ n → n < 0x8000000000000000 →
      (if Word.signedBound ≤ n then Except.error ConstantError.codeOverflow
        else .ok (Word.ofInt n)) = .ok (.ofInt n) ∧ (Word.ofInt n).toInt = n :=
    fun n hle hlt => ⟨if_neg (Int.not_le.2 hlt),
      Word.toInt_ofInt (Word.inRange_signed.2 ⟨hle, hlt⟩)⟩
  unfold singleCode
  simp only [Bool.and_eq_true, decide_eq_true_eq, and_assoc]
  split
  · -- The upper half of a byte is shifted below zero.
    obtain ⟨hok, hvalue⟩ := hkeep ((code : Int) - 256) (by omega) (by omega)
    exact ⟨_, hok, rfl, hvalue⟩
  · obtain ⟨hok, hvalue⟩ := hkeep code (by omega) (by omega)
    exact ⟨_, hok, rfl, hvalue⟩

/-- Several codes are worth the number with these bytes, cut down to 64 bits with a sign. -/
private theorem toInt_combineCodes (codes : List Nat) :
    (combineCodes codes).toInt =
      Int.bmod (Nat.ofDigits 256 (codes.map (· % 256)).reverse : Nat) (2 ^ 64) := by
  rw [Digit.ofDigits_reverse_eq_foldl, List.foldl_map]
  exact BitVec.toInt_ofInt _

/-- A literal with a single code that fits a signed word is worth that code, but for a plain
character of the upper half of a byte, which is negative. Several codes are worth the last 64 bits
of the number with these bytes, with a sign. -/
theorem character_decodes (codes : List Nat) :
    (∃ body, CharacterText body codes) ∧
    ∀ encoding body : List Char, '\'' ∉ encoding → CharacterText body codes →
      let spelling := String.ofList (encoding ++ '\'' :: (body ++ ['\'']))
      (∀ c, codes = [c] → c < 2 ^ 63 → ∃ w, character spelling = .ok w ∧ w.unsigned = false ∧
        w.toInt = if encoding = [] ∧ 128 ≤ c ∧ c < 256 then (c : Int) - 256 else c) ∧
      (2 ≤ codes.length → ∃ w, character spelling = .ok w ∧ w.unsigned = false ∧
        w.toInt = Int.bmod (Nat.ofDigits 256 (codes.map (· % 256)).reverse : Nat) (2 ^ 64)) := by
  refine ⟨CharacterText.exists_of_codes codes, ?_⟩
  intro encoding body hencoding htext spelling
  have hbody : codes ≠ [] → body ≠ [] := by
    rintro hcodes rfl
    cases htext
    exact hcodes rfl
  have hworth := fun hne => character_of_codes hencoding (hbody hne) htext.characterCodes_eq
  constructor
  · -- One code.
    rintro c rfl hc
    rw [show character spelling = singleCode encoding.isEmpty c from hworth (by simp)]
    simpa only [List.isEmpty_iff] using toInt_singleCode encoding.isEmpty hc
  · -- Two or more, which are combined.
    intro hlength
    have hne : codes ≠ [] := fun h => by simp [h] at hlength
    refine ⟨combineCodes codes, ?_, rfl, toInt_combineCodes codes⟩
    exact (hworth hne).trans (if_neg (by omega))

/-- Three octal digits and a fourth that is no part of the escape, a hexadecimal escape that ends
before a letter, and a byte with its upper bit set. -/
theorem character_decodes_escapes :
    (∃ w, character "u8'\\1017\\x7Fg\\n'" = .ok w ∧ w.unsigned = false ∧
      w.toInt = 0x41377F670A) ∧
    ∃ w, character "'\\377'" = .ok w ∧ w.unsigned = false ∧ w.toInt = -1 := by
  -- The digits of the three numbers, as they are written.
  let octal : List (Digit 8) :=
    [⟨1, by decide, false⟩, ⟨0, by decide, false⟩, ⟨1, by decide, false⟩]
  let hex : List (Digit 16) := [⟨7, by decide, false⟩, ⟨15, by decide, true⟩]
  let byte : List (Digit 8) :=
    [⟨3, by decide, false⟩, ⟨7, by decide, false⟩, ⟨7, by decide, false⟩]
  have hseveral : CharacterText ('\\' :: (Digit.chars octal ++ '7' :: '\\' :: 'x' ::
      (Digit.chars hex ++ ['g', '\\', 'n']))) [65, 55, 127, 103, 10] := by
    have hn : ('n', '\n') ∈ letterEscapes := by decide
    have hg : NoDigitNext 16 ['g', '\\', 'n'] := (noDigitNext_iff (Nat.le_refl 16)).2 rfl
    exact .octal (by decide) (by decide) (fun h => absurd h (by decide)) (.plain (by decide)
      (.hexadecimal (.inl rfl) (by decide) hg (.plain (by decide) (.letter hn .nil))))
  have hbyte : CharacterText ('\\' :: (Digit.chars byte ++ [])) [255] :=
    .octal (by decide) (by decide) (fun h => absurd h (by decide)) .nil
  exact ⟨((character_decodes _).2 ['u', '8'] _ (by decide) hseveral).2 (by decide),
    ((character_decodes _).2 [] _ (by decide) hbyte).1 255 rfl (by decide)⟩

end Constant

end Preproc
