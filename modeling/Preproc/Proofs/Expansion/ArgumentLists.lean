import Preproc.Proofs.Expansion.Reading
import Preproc.Proofs.Samples

/-!
# Argument lists

The argument list of an invocation is the text between a parenthesis and the one that closes it,
cut at the commas outside of inner parentheses. What this means is said here of the tokens that
follow, without a stack: `nesting` counts how many more parentheses a text opens than it closes, and
the list ends where nothing is open any more (`closing?`); a comma separates where nothing but the
list itself is open (`separators`).

Arguments are read one token at a time, from streams that end in between. `Gathers` says how far
this has come: what has been read is cut where it has to be, and is not closed yet.

## Key results

- `Stack.lookahead_of_next?`: the next token is the first of those that follow
- `Gathers.keep`, `Gathers.cut`: what one more token does to the arguments read so far
- `Stack.gather_spec`: what has been read when the list is closed, or not
- `Stack.collect_cases`: what is found after a parenthesis
- `Expander.collect_arguments`: the argument lists that are recognised, and what they leave
-/

namespace Preproc

/-! ## Argument lists as texts -/

namespace ArgumentList

/-- How many more parentheses are opened than closed. -/
def nesting (ts : List Token) : Int :=
  ts.countP (·.isPunctuator "(") - ts.countP (·.isPunctuator ")")

/-- The first position at which all parentheses are closed. -/
def closing? (ts : List Token) : Option Nat :=
  (List.range ts.length).find? fun n => nesting (ts.take (n + 1)) = 0

/-- The positions of the commas outside of parentheses. -/
def separators (ts : List Token) : List Nat :=
  (List.range ts.length).filter fun i =>
    ts[i]?.any (·.isPunctuator ",") && nesting (ts.take i) = 0

/-- The positions at which the arguments of `m` are cut. The last parameter of a variadic macro
takes all commas that are left. -/
def cuts (m : Macro) (ts : List Token) : List Nat :=
  if m.isVariadic then (separators ts).take (m.params.length - 1) else separators ts

/-- The tokens from `start` on, without those at the given positions and cut there. -/
def pieces (start : Nat) : List Nat → List Token → List (List Token)
  | [], ts => [ts.drop start]
  | p :: ps, ts => (ts.take p).drop start :: pieces (p + 1) ps ts

/-- The arguments that the text between the parentheses gives to `m`. A macro without parameters has
none if the text is empty. -/
def arguments (m : Macro) (ts : List Token) : List (List Token) :=
  if m.params = [] ∧ ts = [] then [] else pieces 0 (cuts m ts) ts

/-! ## Nesting -/

/-- The parentheses that are left open add up. -/
theorem nesting_append (ts us : List Token) : nesting (ts ++ us) = nesting ts + nesting us := by
  simp only [nesting, List.countP_append]
  omega

/-- A parenthesis that opens counts one. -/
private theorem nesting_open {t : Token} (h : t.isPunctuator "(" = true) : nesting [t] = 1 := by
  have hclose := Token.isPunctuator_of_ne h (b := ")") (by decide)
  simp [nesting, h, hclose]

/-- A parenthesis that closes takes one away. -/
private theorem nesting_close {t : Token} (h : t.isPunctuator ")" = true) : nesting [t] = -1 := by
  have hopen := Token.isPunctuator_of_ne h (b := "(") (by decide)
  simp [nesting, h, hopen]

private theorem nesting_other {t : Token} (hopen : t.isPunctuator "(" = false)
    (hclose : t.isPunctuator ")" = false) : nesting [t] = 0 := by
  simp [nesting, hopen, hclose]

/-- No parenthesis is closed that has not been opened. -/
def Opened (ts : List Token) : Prop :=
  ∀ n < ts.length, 0 ≤ nesting (ts.take (n + 1))

/-- Every parenthesis is closed, and none before it is opened. -/
structure Enclosed (ts : List Token) : Prop where
  opened : Opened ts
  closed : nesting ts = 0

/-- A parenthesis before such a text stays open. -/
private theorem nesting_take_ne_zero {o : Token} {ts : List Token} (ho : o.isPunctuator "(" = true)
    (h : Opened ts) {n : Nat} (hn : n ≤ ts.length) : nesting ((o :: ts).take (n + 1)) ≠ 0 := by
  have hopened : 0 ≤ nesting (ts.take n) := by
    cases n with
    | zero => simp [nesting]
    | succ n => exact h n (by omega)
  rw [List.take_succ_cons, ← List.singleton_append, nesting_append, nesting_open ho]
  omega

/-- The list is closed by the parenthesis behind a text in which all are closed. -/
private theorem closing?_of_enclosed {o r : Token} {inner : List Token}
    (ho : o.isPunctuator "(" = true)
    (hr : r.isPunctuator ")" = true) (h : Enclosed inner) (rest : List Token) :
    closing? (o :: (inner ++ r :: rest)) = some (inner.length + 1) := by
  rw [closing?, List.find?_range_eq_some]
  refine ⟨?_, ?_, ?_⟩
  · have htake :
        (o :: (inner ++ r :: rest)).take (inner.length + 1 + 1) = [o] ++ (inner ++ [r]) := by
      simp [List.take_append, List.take_of_length_le]
    have hnesting := h.closed
    simp only [htake, nesting_append, nesting_open ho, nesting_close hr, hnesting]
    decide
  · simp
  · -- No position before it will do: there the list itself is still open.
    intro n hn
    have hle : n ≤ inner.length := by omega
    have hstays := nesting_take_ne_zero ho h.opened hle
    rw [List.take_succ_cons] at hstays ⊢
    rw [List.take_append_of_le_length hle]
    simpa using hstays

/-- A list is never closed if no text behind its parenthesis closes it. -/
private theorem closing?_eq_none {o : Token} {ts : List Token} (ho : o.isPunctuator "(" = true)
    (h : Opened ts) : closing? (o :: ts) = none := by
  rw [closing?, List.find?_eq_none]
  intro n hn
  have hlt : n < ts.length + 1 := by simpa using hn
  simp only [decide_eq_true_eq]
  exact nesting_take_ne_zero ho h (Nat.le_of_lt_succ hlt)

/-! ## Cutting -/

/-- One more token is one more separator if it is a comma and nothing is open before it. -/
private theorem separators_concat (ts : List Token) (t : Token) :
    separators (ts ++ [t]) = separators ts ++
      if t.isPunctuator "," && nesting ts = 0 then [ts.length] else [] := by
  -- What counts at a place is told by the tokens before it.
  have hbefore : (List.range ts.length).filter (fun i =>
      (ts ++ [t])[i]?.any (·.isPunctuator ",") && nesting ((ts ++ [t]).take i) = 0) =
        separators ts := by
    refine List.filter_congr fun i hi => ?_
    have hlt : i < ts.length := List.mem_range.1 hi
    rw [List.getElem?_append_left hlt, List.take_append_of_le_length (by omega)]
  rw [separators, List.length_append, List.length_singleton, List.range_succ, List.filter_append,
    hbefore]
  simp [List.filter_cons]

private theorem lt_of_mem_separators {ts : List Token} {p : Nat} (h : p ∈ separators ts) :
    p < ts.length :=
  List.mem_range.1 (List.mem_filter.1 h).1

/-- Cuts are positions in the text. -/
private theorem lt_of_mem_cuts {m : Macro} {ts : List Token} {p : Nat} (h : p ∈ cuts m ts) :
    p < ts.length := by
  unfold cuts at h
  split at h
  · exact lt_of_mem_separators (List.mem_of_mem_take h)
  · exact lt_of_mem_separators h

/-- The comma `t` after `ts` is a cut, if the variable argument has not been reached. -/
private theorem cuts_concat {m : Macro} (hm : m.isVariadic = true → m.params ≠ []) (ts : List Token)
    (t : Token) : cuts m (ts ++ [t]) = cuts m ts ++
      if t.isPunctuator "," && nesting ts = 0 &&
        (!m.isVariadic || (cuts m ts).length + 1 ≠ m.params.length) then [ts.length] else [] := by
  unfold cuts
  rw [separators_concat]
  cases hvariadic : m.isVariadic with
  | false => simp
  | true =>
    have hpos : 0 < m.params.length := List.length_pos_iff.2 (hm hvariadic)
    cases hcomma : t.isPunctuator "," && nesting ts = 0 with
    | false => simp
    | true =>
      simp only [if_true, List.take_append, List.length_take]
      congr 1
      -- There is room for one more cut unless all but the last parameter have their argument.
      by_cases hroom : (separators ts).length < m.params.length - 1
      · rw [List.take_of_length_le (by simp; omega), if_pos (by simp; omega)]
      · rw [show m.params.length - 1 - (separators ts).length = 0 by omega, if_neg (by simp; omega)]
        rfl

/-- There is one piece more than there are cuts. -/
private theorem length_pieces (start : Nat) (ps : List Nat) (ts : List Token) :
    (pieces start ps ts).length = ps.length + 1 := by
  induction ps generalizing start with
  | nil => rfl
  | cons p ps ih => simp [pieces, ih]

/-- One more token belongs to the last piece, unless the text is cut there. -/
private theorem pieces_concat {start : Nat} {ps : List Nat} {ts last : List Token}
    {init : List (List Token)} (hstart : start ≤ ts.length) (hps : ∀ p ∈ ps, p < ts.length)
    (h : pieces start ps ts = init ++ [last]) (t : Token) :
    pieces start ps (ts ++ [t]) = init ++ [last ++ [t]] ∧
      pieces start (ps ++ [ts.length]) (ts ++ [t]) = init ++ [last, []] := by
  induction ps generalizing start init with
  -- There is only one piece, which goes on with the token or ends before it.
  | nil =>
    have hone : [] ++ [ts.drop start] = init ++ [last] := h
    obtain ⟨rfl, hlast⟩ := List.append_inj' hone rfl
    obtain rfl := List.singleton_inj.1 hlast
    simp [pieces, List.drop_append_of_le_length hstart]
  | cons p ps ih =>
    cases init with
    | nil =>
      have hlength := congrArg List.length h
      simp [pieces, length_pieces] at hlength
    | cons a init =>
      obtain ⟨rfl, hrest⟩ := List.cons.inj h
      have hp := hps p List.mem_cons_self
      -- The first piece is complete, and the token belongs to those behind it.
      obtain ⟨hkeep, hcut⟩ := ih (Nat.succ_le_of_lt hp)
        (fun q hq => hps q (List.mem_cons_of_mem p hq)) hrest
      simp only [pieces, List.cons_append, hkeep, hcut,
        List.take_append_of_le_length (Nat.le_of_lt hp), and_self]

/-- Nothing between the parentheses is one empty piece. -/
theorem pieces_eq_iff {m : Macro} {ts : List Token} : pieces 0 (cuts m ts) ts = [[]] ↔ ts = [] := by
  constructor
  · intro h
    have hlength := congrArg List.length h
    rw [length_pieces] at hlength
    have hnone : cuts m ts = [] := List.eq_nil_of_length_eq_zero (by simpa using hlength)
    simpa [hnone, pieces] using h
  · rintro rfl
    simp [cuts, separators, pieces]

/-! ## Reading the arguments one by one -/

/-- The number of arguments after which commas no longer separate. -/
def limit (m : Macro) : Option Nat :=
  if m.isVariadic then some m.params.length else none

/-- When the tokens `seen` have been read inside `depth` open parentheses, they are cut into the
arguments `before` and `current`, newest first, and none of the parentheses is closed. -/
structure Gathers (m : Macro) (seen : List Token) (depth : Nat) (before : List (List Token))
    (current : List Token) : Prop where
  depth_eq : (depth : Int) = nesting seen + 1
  opened : Opened seen
  pieces_eq : pieces 0 (cuts m seen) seen = before.reverse ++ [current.reverse]

/-- At first nothing has been read but the parenthesis that opens the list. -/
theorem gathers_nil (m : Macro) : Gathers m [] 1 [] [] := by
  refine ⟨by simp [nesting], by simp [Opened], ?_⟩
  exact pieces_eq_iff.2 rfl

namespace Gathers

variable {m : Macro} {seen current : List Token} {depth : Nat} {before : List (List Token)}

/-- There are as many cuts as arguments behind the one that is being read. -/
private theorem length_cuts (h : Gathers m seen depth before current) :
    (cuts m seen).length = before.length := by
  have hlength := congrArg List.length h.pieces_eq
  rw [length_pieces] at hlength
  simpa using hlength

/-- A token separates if it is a comma, only the list itself is open, and the variable argument has
not been reached. -/
private theorem cuts_concat (h : Gathers m seen depth before current)
    (hm : m.isVariadic = true → m.params ≠ []) (t : Token) :
    cuts m (seen ++ [t]) = cuts m seen ++
      if t.isPunctuator "," && depth = 1 && limit m ≠ some (before.length + 1)
        then [seen.length] else [] := by
  -- The nesting is counted from the opening parenthesis on.
  have hdepth : decide (nesting seen = 0) = decide (depth = 1) := by
    rw [decide_eq_decide]
    have := h.depth_eq
    omega
  -- Behind the last separator a variadic macro takes commas as text.
  have hlimit : (!m.isVariadic || decide ((cuts m seen).length + 1 ≠ m.params.length)) =
      decide (limit m ≠ some (before.length + 1)) := by
    rw [h.length_cuts, limit]
    cases m.isVariadic <;> simp [eq_comm]
  rw [ArgumentList.cuts_concat hm, hdepth, hlimit]

/-- One more token leaves what is opened before it as it is. -/
private theorem opened_concat (h : Gathers m seen depth before current) {t : Token}
    (ht : 0 ≤ nesting (seen ++ [t])) : Opened (seen ++ [t]) := by
  intro n hn
  rw [List.length_append, List.length_singleton] at hn
  by_cases hlast : n = seen.length
  · rw [List.take_of_length_le (by simp; omega)]
    exact ht
  · rw [List.take_append_of_le_length (by omega)]
    exact h.opened n (by omega)

/-- A token that does not separate belongs to the argument that is being read. -/
theorem keep (h : Gathers m seen depth before current)
    (hm : m.isVariadic = true → m.params ≠ []) {t : Token} {d : Nat}
    (ht : ¬(t.isPunctuator "," && depth = 1 && limit m ≠ some (before.length + 1)) = true)
    (hd : (d : Int) = depth + nesting [t]) (hpos : 0 < d) :
    Gathers m (seen ++ [t]) d before (t :: current) := by
  have hdepth := h.depth_eq
  have hnesting := nesting_append seen [t]
  refine ⟨by omega, h.opened_concat (by omega), ?_⟩
  rw [h.cuts_concat hm, if_neg ht, List.append_nil, List.reverse_cons]
  exact (pieces_concat (Nat.zero_le _) (fun _ => lt_of_mem_cuts) h.pieces_eq t).1

/-- After a token that separates, the next argument is read. -/
theorem cut (h : Gathers m seen depth before current)
    (hm : m.isVariadic = true → m.params ≠ []) {t : Token}
    (ht : (t.isPunctuator "," && depth = 1 && limit m ≠ some (before.length + 1)) = true) :
    Gathers m (seen ++ [t]) depth (Stack.endArgument before current) [] := by
  have hcomma : t.isPunctuator "," = true := by
    simp only [Bool.and_eq_true] at ht
    exact ht.1.1
  have hnone : nesting [t] = 0 := nesting_other (Token.isPunctuator_of_ne hcomma (by decide))
    (Token.isPunctuator_of_ne hcomma (by decide))
  have hdepth := h.depth_eq
  have hnesting := nesting_append seen [t]
  refine ⟨by omega, h.opened_concat ?_, ?_⟩
  · -- The list itself stays open.
    simp only [Bool.and_eq_true, decide_eq_true_eq] at ht
    omega
  · rw [h.cuts_concat hm, if_pos ht, Stack.endArgument, List.reverse_cons, List.append_assoc]
    exact (pieces_concat (Nat.zero_le _) (fun _ => lt_of_mem_cuts) h.pieces_eq t).2

end Gathers

end ArgumentList

/-! ## Reading from the stack -/

namespace Stack

open ArgumentList

/-- Reading from a stream does not change how it paints. -/
private theorem paint_read (f : Frame) (ts : List Token) (fs : Stack) :
    paint ({ f with consumed := f.consumed + 1, rest := ts } :: fs) = paint (f :: fs) := by
  funext t
  unfold paint
  rw [painted_read]

/-- The next token is the first of those that follow, and the others follow after it: a token is
painted by the stream that it is read from and those below, which reading leaves as they are. -/
theorem lookahead_of_next? {s s' : Stack} {t : Token} (h : s.next? = some (t, s')) :
    s.lookahead = t :: s'.lookahead := by
  induction s with
  | nil => simp [next?] at h
  | cons f fs ih =>
    unfold next? at h
    split at h
    · rename_i u us hf
      simp only [Option.some.injEq, Prod.mk.injEq] at h
      obtain ⟨rfl, rfl⟩ := h
      simp only [lookahead, hf, List.map_cons, List.cons_append, paint_read]
    · -- This context is used up, so the one below gives the token.
      rename_i hf
      rw [lookahead, hf]
      exact ih h

/-- If there is no next token, then none follow. -/
theorem lookahead_of_next?_none {s : Stack} (h : s.next? = none) : s.lookahead = [] := by
  induction s with
  | nil => rfl
  | cons f fs ih =>
    unfold next? at h
    split at h
    · cases h
    · rename_i hf
      rw [lookahead, hf]
      exact ih h

/-- What has been read of an argument list after the tokens `seen`. If it is closed, its tokens up
to the parenthesis that closes it have been read; if not, all parentheses stay open to the end. -/
def Gathered (m : Macro) (seen : List Token) (s : Stack) : Option (List (List Token) × Stack) → Prop
  | some (args, s') => ∃ us inner r, s.take us.length = (us, s') ∧
      s.lookahead = us ++ s'.lookahead ∧ seen ++ us = inner ++ [r] ∧ r.isPunctuator ")" = true ∧
      Enclosed inner ∧ args = pieces 0 (cuts m inner) inner
  | none => Opened (seen ++ s.lookahead)

/-- What has been read after one more token has been read without it, if it is the next. -/
theorem Gathered.read {m : Macro} {seen : List Token} {s s₁ : Stack} {t : Token}
    {r : Option (List (List Token) × Stack)} (h : Gathered m (seen ++ [t]) s₁ r)
    (hnext : s.next? = some (t, s₁)) : Gathered m seen s r := by
  have hlookahead := lookahead_of_next? hnext
  cases r with
  -- No token was found that ends the list, and this one does not either.
  | none =>
    unfold Gathered at *
    rwa [hlookahead, List.append_cons]
  | some r =>
    obtain ⟨us, inner, c, htake, hus, hinner, hrest⟩ := h
    refine ⟨t :: us, inner, c, ?_, ?_, ?_, hrest⟩
    · rw [List.length_cons, take, hnext]
      simp only [htake]
    · rw [hlookahead, hus, List.cons_append]
    · rw [← hinner, List.append_cons]

/-- Reading arguments goes on to the parenthesis that closes the list, or to the end of all
streams. -/
theorem gather_spec {m : Macro} (hm : m.isVariadic = true → m.params ≠ []) {seen : List Token}
    {depth : Nat} {before : List (List Token)} {current : List Token}
    (h : Gathers m seen depth before current) (hdepth : 0 < depth) (s : Stack) :
    Gathered m seen s (gather (limit m) depth before current s) := by
  fun_induction gather (limit m) depth before current s generalizing seen with
  -- All streams have ended, and what has been read was never closed.
  | case1 depth before current s hnone =>
    unfold Gathered
    rw [lookahead_of_next?_none hnone, List.append_nil]
    exact h.opened
  -- The token separates two arguments.
  | case2 depth before current s t s₁ hn ht ih =>
    exact (ih (h.cut hm ht) hdepth).read hn
  -- It opens an inner parenthesis, closes one, or is any other token: it belongs to the argument.
  | case3 depth before current s t s₁ hn ht hopen ih =>
    have hkept := h.keep hm ht (d := depth + 1) (by rw [nesting_open hopen]; omega) (by omega)
    exact (ih hkept (by omega)).read hn
  | case4 depth before current s t s₁ hn ht hopen hclose hlast =>
    -- Only the list itself is open, so this is the parenthesis that closes it.
    have hnesting := h.depth_eq
    refine ⟨[t], seen, t, ?_, lookahead_of_next? hn, rfl, hclose, ⟨h.opened, by omega⟩, ?_⟩
    · rw [List.length_singleton, take, hn]
      rfl
    · rw [h.pieces_eq, endArgument, List.reverse_cons]
  | case5 depth before current s t s₁ hn ht hopen hclose hlast ih =>
    have hkept := h.keep hm ht (d := depth - 1) (by rw [nesting_close hclose]; omega) (by omega)
    exact (ih hkept (by omega)).read hn
  | case6 depth before current s t s₁ hn ht hopen hclose ih =>
    have hkept := h.keep hm ht (d := depth) (by rw [nesting_other] <;> simp_all) hdepth
    exact (ih hkept hdepth).read hn

/-- Pieces are made arguments by dropping the empty one, if there are no parameters. -/
private theorem normalArguments_pieces (m : Macro) (ts : List Token) :
    normalArguments m (pieces 0 (cuts m ts) ts) = arguments m ts := by
  unfold normalArguments arguments
  simp only [pieces_eq_iff, Bool.and_eq_true, List.isEmpty_iff, decide_eq_true_eq]

/-- What is found after a parenthesis is what is gathered, if the macro accepts as many. -/
private theorem collect_of_next? {s s₁ : Stack} {o : Token} (hnext : s.next? = some (o, s₁))
    (m : Macro) : (s.collect m).value = (gather (limit m) 1 [] [] s₁).bind fun r =>
      if m.accepts (normalArguments m r.1).length then some (normalArguments m r.1, r.2)
      else none := by
  unfold collect limit
  simp only [hnext, Option.bind_some]
  -- The parenthesis has been read, and the rest is the same for both.
  generalize gather _ 1 [] [] s₁ = found
  cases found with
  | none => rfl
  | some r =>
    simp only [Option.bind_some]
    split <;> rfl

/-- After a parenthesis that is never closed nothing is found. Otherwise the text in between is cut
into arguments, which are taken if the macro accepts as many. -/
theorem collect_cases {m : Macro} (hm : m.isVariadic = true → m.params ≠ []) {s : Stack}
    (hopen : s.lookahead.head?.any (·.isPunctuator "(") = true) :
    (closing? s.lookahead = none ∧ (s.collect m).value = none) ∨
    ∃ n s', closing? s.lookahead = some n ∧
      s.take (n + 1) = (s.lookahead.take (n + 1), s') ∧ s'.lookahead = s.lookahead.drop (n + 1) ∧
      (s.collect m).value =
        if m.accepts (arguments m ((s.lookahead.take n).drop 1)).length then
          some (arguments m ((s.lookahead.take n).drop 1), s')
        else none := by
  cases hnext : s.next? with
  | none => simp [lookahead_of_next?_none hnext] at hopen
  | some first =>
    obtain ⟨o, s₁⟩ := first
    have hts := lookahead_of_next? hnext
    have ho : o.isPunctuator "(" = true := by simpa [hts] using hopen
    have hcollect := collect_of_next? hnext m
    -- What `gather` says is read as a statement about the tokens that follow.
    have hspec := gather_spec hm (gathers_nil m) Nat.one_pos s₁
    cases hgather : gather (limit m) 1 [] [] s₁ with
    | none =>
      rw [hgather] at hspec hcollect
      exact .inl ⟨hts ▸ closing?_eq_none ho hspec, hcollect⟩
    | some found =>
      obtain ⟨args, s'⟩ := found
      rw [hgather] at hspec hcollect
      obtain ⟨us, inner, c, htake, hus, hinner, hc, henclosed, rfl⟩ := hspec
      rw [List.nil_append] at hinner
      subst hinner
      rw [Option.bind_some, normalArguments_pieces] at hcollect
      -- The text is the list with its parentheses, and what is left.
      replace hts : s.lookahead = o :: (inner ++ c :: s'.lookahead) := by
        rw [hts, hus, List.append_assoc, List.singleton_append]
      have hbetween : (s.lookahead.take (inner.length + 1)).drop 1 = inner := by simp [hts]
      rw [List.length_append, List.length_singleton] at htake
      refine .inr ⟨inner.length + 1, s', ?_, ?_, ?_, ?_⟩
      · exact hts ▸ closing?_of_enclosed ho hc henclosed s'.lookahead
      · rw [take, hnext]
        simp [htake, hts, List.take_append, List.take_of_length_le]
      · simp [hts]
      · rw [hbetween]
        exact hcollect

end Stack

/-- A variadic macro has a parameter for the variable argument. -/
private theorem Signature.params_ne_nil_of_variadic {params : List String}
    (h : (ofSpellings params).variadic = true) : (ofSpellings params).params ≠ [] := by
  unfold ofSpellings at *
  split at h
  · cases h
  · split at h
    · simp_all
    · split at h
      · simp_all
      · cases h

namespace Expander

open ArgumentList

/-- If no argument list is found, the name stays as it is, and the stack too. -/
private theorem call_of_collect_none {x : Expander} {m : Macro}
    (h : (x.stack.collect m).value = none) (site : Token) :
    ∃ notes, x.call m site = .emit site (x.addNotes notes) := by
  unfold call
  split
  · simp only [h]
    exact ⟨_, rfl⟩
  · exact ⟨[], by simp [addNotes]⟩

/-- Let a parenthesis follow. If it is closed, and the macro takes as many arguments as the text in
between is cut into, these are the arguments; they are read up to the parenthesis that closes the
list, and what follows it is left. In all other cases there is no argument list, and the stack is
not touched. -/
theorem collect_arguments (x : Expander) (name : String) (params : List String) (plain : List Bool)
    (body : List Token) (hopen : x.stack.lookahead.head?.any (·.isPunctuator "(") = true) :
    let m := Macro.function name (Signature.ofSpellings params) plain body
    let ts := x.stack.lookahead
    (∀ n, closing? ts = some n → m.accepts (arguments m ((ts.take n).drop 1)).length = true →
      ∃ s, (x.stack.collect m).value = some (arguments m ((ts.take n).drop 1), s) ∧
        x.stack.take (n + 1) = (ts.take (n + 1), s) ∧ s.lookahead = ts.drop (n + 1)) ∧
    ((∀ n, closing? ts = some n → m.accepts (arguments m ((ts.take n).drop 1)).length = false) →
      (x.stack.collect m).value = none ∧
        ∀ site, ∃ notes, x.call m site = .emit site (x.addNotes notes)) := by
  intro m ts
  obtain ⟨hclosing, hcollect⟩ | ⟨k, s, hclosing, htake, hrest, hcollect⟩ :=
    Stack.collect_cases (m := m) Signature.params_ne_nil_of_variadic hopen
  · refine ⟨fun n hn => ?_, fun _ => ⟨hcollect, call_of_collect_none hcollect⟩⟩
    cases hclosing.symm.trans hn
  · refine ⟨fun n hn haccepts => ?_, fun hrefused => ?_⟩
    · -- There is only one such position.
      obtain rfl := Option.some.inj (hclosing.symm.trans hn)
      exact ⟨s, hcollect.trans (if_pos haccepts), htake, hrest⟩
    · have hnot := Bool.eq_false_iff.1 (hrefused k hclosing)
      have hnone := hcollect.trans (if_neg hnot)
      exact ⟨hnone, call_of_collect_none hnone⟩

namespace Crossing

open Token in
/-- The rest `(g, (b` of a replacement of `g`, and `, c), d) e` after it. -/
def state : Expander :=
  { stack := [⟨some "g", 1, [sign "(", word "g", sign ",", sign "(", word "b"]⟩,
      ⟨none, 1, [sign ",", word "c", sign ")", sign ",", word "d", sign ")", word "e"]⟩] }

/-- A macro with one parameter and a variable argument. -/
def variadic : Macro :=
  .function "f" (Signature.ofSpellings ["x", "..."]) [] []

end Crossing

open Token Crossing in
/-- The argument list ends in another stream than it starts in. The first comma separates; the
others stand in inner parentheses, or belong to the variable argument. -/
theorem collect_arguments_crossing :
    state.stack.lookahead.head?.any (·.isPunctuator "(") = true ∧
    closing? state.stack.lookahead = some 10 ∧
    ∃ s, (state.stack.collect variadic).value =
        some ([[(word "g").paint], [sign "(", word "b", sign ",", word "c", sign ")", sign ",",
          word "d"]], s) ∧
      s.lookahead = [word "e"] := by
  have hopen : state.stack.lookahead.head?.any (·.isPunctuator "(") = true := by decide
  have hclosing : closing? state.stack.lookahead = some 10 := by decide
  -- As many arguments are found as the macro takes.
  have haccepts : variadic.accepts
      (arguments variadic ((state.stack.lookahead.take 10).drop 1)).length = true := by decide
  obtain ⟨hfound, -⟩ := collect_arguments state "f" ["x", "..."] [] [] hopen
  obtain ⟨s, hcollect, -, hrest⟩ := hfound 10 hclosing haccepts
  exact ⟨hopen, hclosing, s, hcollect, hrest⟩

end Expander

end Preproc
