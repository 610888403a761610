import Preproc.Proofs.Expansion.Sound
import Preproc.Proofs.Lexing.Splices

/-!
# Reading a token again

How far a token reaches depends on what follows it: names, numbers and punctuators reach as far as
they can, and `<::` is read differently before some characters. Taken by itself, the text of a token
is read as that token again, whatever it was cut from. Raw strings are left out, and so are tokens
of no known kind: a raw string may hold a backslash before a newline, and the two are taken out of a
text that is read.

Pasting asks whether the text of two tokens is read as one token, so what it gives is stable too.

## Key results

- `relex_of_spelled`: a spelling is read as one token
- `Token.Read.spelled`: the text of a token that was read is a spelling, if it is plain
- `relex_stable`: plain tokens are read again as they are, and so is what they are pasted to
-/

namespace Preproc

/-- The token is of a kind that is known, and no raw string. -/
def Token.isPlain (t : Token) : Bool :=
  t.kind ≠ .unknown && t.kind ≠ .eof && !(t.kind = .string && t.isRaw)

/-- The text of the token is read as one token, of the same kind and with the same text. -/
def Token.Stable (t : Token) : Prop :=
  ∃ u, (relex t.value.toList).value = [u] ∧ u.kind = t.kind ∧ u.value = t.value

/-! ## Spellings -/

/-- A spelling is read as one token. -/
theorem relex_of_spelled {k : Kind} {cs : List Char} (h : Spelled k cs) (hreturn : '\r' ∉ cs) :
    ∃ u, (relex cs).value = [u] ∧ u.kind = k ∧ u.value = String.ofList cs := by
  obtain ⟨hnewline, hlast⟩ := h.smooth
  -- Nothing follows that the spelling could stick to.
  have hread : readings false true cs = [reading k cs false true, reading .eof [] false false] := by
    rw [← List.append_nil cs, readings_spelled h (not_sticks_nil h), List.append_nil, readings_nil]
  have hone : (relex cs).value.map Token.unplaced = [reading k cs false true] := by
    rw [relex, Noted.value_bind, unplaced_all, logicalText_of_line hreturn hnewline hlast, hread]
    rfl
  obtain ⟨u, hu, hreading⟩ := List.map_eq_singleton_iff.1 hone
  exact ⟨u, hu, congrArg Token.kind hreading, congrArg Token.value hreading⟩

/-- A spelling is stable. -/
private theorem Token.stable_of_spelled {t : Token} (h : Spelled t.kind t.value.toList)
    (hreturn : '\r' ∉ t.value.toList) : t.Stable := by
  obtain ⟨u, hone, hkind, hvalue⟩ := relex_of_spelled h hreturn
  exact ⟨u, hone, hkind, by rw [hvalue, String.ofList_toList]⟩

/-! ## Tokens that are read -/

namespace Token

/-- A plain token that was read is a spelling. -/
theorem Read.spelled {t : Token} (h : t.Read) (hplain : t.isPlain = true) :
    Spelled t.kind t.value.toList := by
  obtain ⟨text, hmem⟩ := h
  simp only [isPlain, Bool.and_eq_true, decide_eq_true_eq, Bool.not_eq_true', Bool.and_eq_false_imp]
    at hplain
  apply spelled_of_mem_lexemes hmem hplain.1.1
  intro hstring
  simpa [isRaw, encoding] using hplain.2 hstring

/-- Such a token stands on one line. -/
theorem Read.break_notMem {t : Token} (h : t.Read) (hplain : t.isPlain = true) {c : Char}
    (hc : c ∈ ['\r', '\n']) : c ∉ t.value.toList := by
  rcases List.mem_pair.1 hc with rfl | rfl
  · obtain ⟨text, hmem⟩ := h
    -- Carriage returns are gone before tokens are read.
    exact fun hreturn => cr_notMem_logicalText text (subset_of_mem_lexemes hmem hreturn)
  · exact (h.spelled hplain).smooth.1

end Token

/-! ## Pasting -/

/-- What two tokens are pasted to is read from its text. -/
private theorem stable_paste (left right : Token) :
    (paste left right).value = [left, right] ∨
      ∃ t, (paste left right).value = [t] ∧ t.value = left.value ++ right.value ∧ t.Stable := by
  rcases paste_cases left right with hboth | ⟨u, hread, hvalue, hone⟩
  · exact .inl hboth
  · -- It was read from its own text.
    refine .inr ⟨u.inPlaceOf left, hone, hvalue, u, ?_, rfl, rfl⟩
    show (relex u.value.toList).value = [u]
    rw [hvalue, hread]

/-- A token that is read from a text is stable: by itself it is read again as it is, if it is of a
known kind and no raw string. Pasting it to another token leaves the two as they are, or gives one
token that is spelled like the two and is stable again. -/
theorem relex_stable (file : String) (text : List Char) {t : Token}
    (ht : t ∈ (lexText file text).value.all.value) (hplain : t.isPlain = true) :
    t.Stable ∧
      ∀ r : Token, (paste t r).value = [t, r] ∨
        ∃ u, (paste t r).value = [u] ∧ u.value = t.value ++ r.value ∧ u.Stable := by
  have hread := Token.read_of_mem_lexText ht
  have hreturn := hread.break_notMem hplain (List.mem_cons_self : '\r' ∈ ['\r', '\n'])
  exact ⟨Token.stable_of_spelled (hread.spelled hplain) hreturn, stable_paste t⟩

namespace Relexing

/-- A text in which a string follows a name. -/
def text : List Char := "u8 \"q\\\"\"".toList

/-- The name of an encoding. -/
def name : Token :=
  { kind := .identifier, value := "u8", file := "t.c", line := 1, col := 0, bol := true }

/-- A string with an escaped quote. -/
def literal : Token :=
  { kind := .string, value := "\"q\\\"\"", file := "t.c", line := 1, col := 3, prevWhite := true }

end Relexing

open Relexing in
/-- The name is read again as a name, though before a quote it is an encoding, and so is the string
that they are pasted to. -/
theorem relex_stable_encoding :
    (name ∈ (lexText "t.c" text).value.all.value ∧ name.isPlain = true ∧
      literal ∈ (lexText "t.c" text).value.all.value ∧ literal.isPlain = true) ∧
    name.Stable ∧
    ∃ u, (paste name literal).value = [u] ∧ u.value = "u8\"q\\\"\"" ∧ u.Stable := by
  -- Both tokens are read from the text, and they can be pasted.
  have htokens : (name ∈ (lexText "t.c" text).value.all.value ∧ name.isPlain = true ∧
      literal ∈ (lexText "t.c" text).value.all.value ∧ literal.isPlain = true) ∧
      (paste name literal).value ≠ [name, literal] := by
    decide +kernel
  obtain ⟨⟨hname, hname', hliteral, hliteral'⟩, hjoined⟩ := htokens
  obtain ⟨hstable, hpaste⟩ := relex_stable "t.c" text hname hname'
  refine ⟨⟨hname, hname', hliteral, hliteral'⟩, hstable, ?_⟩
  exact (hpaste literal).resolve_left hjoined

end Preproc
