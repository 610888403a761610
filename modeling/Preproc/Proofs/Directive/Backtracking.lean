import Preproc.Proofs.Directive.HeaderNames
import Preproc.Proofs.Directive.ParameterLists
import Preproc.Proofs.Directive.Scanning

/-!
# Reading directives by position

The forms of the grammar hand on the tokens that remain, so a form that refuses a line leaves no
trace. Here they are read with one position that they share, and a form can fail far from where it
started: a parameter list behind its last parameter, a header name behind its literal, an include
directive behind its word. Every form puts the position back before the next one is tried.

Read in this way, forms and lines give what they give when they are read from the tokens that
remain, and leave the position where the tokens that are left remain.

## Key results

- `Scan.takes_params`, `Scan.reads_definition`, `Scan.reads_headerName`: the operands
- `Production.restores_scan`: a form that fails puts the position back
- `Production.runAt_scan`: a form, with the position that it leaves
- `runAt_scanLine`: a line, with the position that is left
-/

namespace Preproc

namespace Scan

/-! ## Operands -/

/-- Reads a parameter, and tells whether it is variable. -/
def param : Scan (Token × Bool) := do
  let name ← maybe (expect Token.isName)
  let dots ← maybe (expect (·.isPunctuator "..."))
  match name, dots with
  | some t, none => pure (t, false)
  | some t, some _ => pure ({ t with value := t.value ++ "..." }, true)
  | none, some d => pure (unnamedVariable d, true)
  | none, none => failure

/-- Reads at most `n` parameters. A comma that no parameter follows is not given back. -/
def params : Nat → Scan (List Token)
  | 0 => pure []
  | n + 1 => do
    match ← maybe param with
    | none => pure []
    | some (p, true) => pure [p]
    | some (p, false) =>
      match ← maybe (expect (·.isPunctuator ",")) with
      | none => pure [p]
      | some _ => (p :: ·) <$> params n

/-- Reads a parameter list between parentheses. -/
def signature : Scan (List Token) := do
  let opening ← expect (·.isPunctuator "(")
  if opening.prevWhite then failure
  else
    -- A line has no more parameters than tokens.
    let ps ← params (← read).length
    let _ ← expect (·.isPunctuator ")")
    pure ps

/-- Reads the name and the parameter list of a definition. -/
def definition : Scan (Token × Option (List Token)) := do
  let name ← expect Token.isName
  let ps ← maybe signature
  pure (name, ps)

/-- Reads the tokens between angle brackets. -/
def bracketed : Scan (List Token) := do
  let _ ← expect (·.isPunctuator "<")
  let ts ← takeUntil (·.isPunctuator ">")
  let _ ← expect (·.isPunctuator ">")
  pure ts

/-- Reads a header name in quotes. -/
def quotedHeader : Scan HeaderName := do
  let t ← expect (·.kind = .string)
  if t.encoding.isEmpty && !t.content.isEmpty then pure ⟨String.ofList t.content, false⟩
  else failure

/-- Reads a header name. The position stays behind brackets without a text between them. -/
def headerName : Scan HeaderName :=
  restoring do
    let path ← orBack bracketed (pure [])
    if Token.spelling path ≠ "" then pure ⟨Token.spelling path, true⟩ else quotedHeader

/-- Reads the operands of an include directive. -/
def target : Scan IncludeTarget :=
  orBack (.header <$> headerName) do
    if (← ahead).isEmpty then failure else .computed <$> takeRest

/-- Notes that a test names nothing. -/
def noteMissing (word : String) : Scan Unit := do
  let first := (← read).head?
  Noted.note (.noMacroName (first.elim "" (·.file)) (first.elim 0 (·.line)) word)

/-- Reads the name that a test asks about; a test without one is noted. -/
def test (word : String) : Scan (Option Token) := do
  match ← maybe (expect Token.isName) with
  | some t => pure (some t)
  | none =>
    noteMissing word
    pure none

end Scan

/-! ## Lines -/

namespace Production

open Scan

/-- Reads what follows the word of a directive. -/
def scanOperands (p : Production) (word : Token) : Scan Directive :=
  match p with
  | ifdef => .ifdef <$> test p.label
  | ifndef => .ifndef <$> test p.label
  | elifdef => .elifdef <$> test p.label
  | elifndef => .elifndef <$> test p.label
  | ifTrue => .ifTrue <$> takeRest
  | elifTrue => .elifTrue <$> takeRest
  | otherwise => pure .otherwise
  | endif => pure .endif
  | define => do
    let (name, ps) ← definition
    .define name ps <$> takeRest
  | undef => .undef <$> expect Token.isName
  | inclusion => (.inclusion · (word.value = "import")) <$> target
  | pragma => .pragma <$> takeRest

/-- Reads a directive of this form. -/
def scan (p : Production) : Scan Directive :=
  restoring do
    let word ← expect fun t => t.isName && p.words.contains t.value
    p.scanOperands word

end Production

/-- Notes the tokens that remain behind a directive. -/
def noteExtra : Scan Unit := do
  if !(← Scan.ahead).isEmpty then
    Noted.note (.extraTokens (String.join ((← read).map (·.value))))

/-- Reads a directive by the first of the forms that takes it. What is tried after a form starts
where that one failed. -/
def scanDirective : List Production → Scan Directive
  | [] => pure .other
  | p :: ps => (do let d ← p.scan; noteExtra; pure d) <|> scanDirective ps

/-- Reads a line, with the given forms. -/
def scanLine (ps : List Production) : Scan DirectiveLine := do
  let _ ← Scan.expect Token.isHash
  let d ← scanDirective ps
  return ⟨← read, d⟩

namespace Scan

variable {line rest : List Token} {pos : Nat}

/-! ## Reading operands -/

/-- A parameter is taken, with the dots that belong to it. -/
private theorem takes_param {ts : List Token} {p : Token} {dotted : Bool}
    (hp : Parameter ts p dotted) (h : Remains line pos (ts ++ rest))
    (hrest : dotted = false → rest.head?.any (·.isPunctuator "...") = false) :
    param.Takes line pos (p, dotted) rest := by
  cases hp with
  | name name =>
    refine (takes_expect h name).maybe.bind fun pos' h' => ?_
    exact ((fails_expect h' (hrest rfl)).maybe h').bind fun _ h'' => takes_pure h'' _
  | namedDots name dots =>
    refine (takes_expect h name).maybe.bind fun pos' h' => ?_
    exact (takes_expect h' dots).maybe.bind fun _ h'' => takes_pure h'' _
  | @dots d dots =>
    -- The dots are no name, so nothing was taken before them.
    have hname : ([d] ++ rest).head?.any Token.isName = false := by
      refine Bool.eq_false_iff.2 fun hname => ?_
      rw [Token.isPunctuator_of_isName hname] at dots
      cases dots
    refine ((fails_expect h hname).maybe h).bind fun pos' h' => ?_
    exact (takes_expect h' dots).maybe.bind fun _ h'' => takes_pure h'' _

/-- Where neither a name nor dots follow, there is no parameter. -/
private theorem fails_param (h : Remains line pos rest)
    (hname : rest.head?.any Token.isName = false)
    (hdots : rest.head?.any (·.isPunctuator "...") = false) : param.Fails line pos := by
  refine ((fails_expect h hname).maybe h).bind fun pos' h' => ?_
  exact ((fails_expect h' hdots).maybe h').bind fun _ _ => fails_failure

/-- A name without dots or a comma behind it is the last parameter. -/
private theorem takes_params_last {n : Nat} {t : Token} (h : Remains line pos (t :: rest))
    (hname : t.isName = true) (hdots : rest.head?.any (·.isPunctuator "...") = false)
    (hcomma : rest.head?.any (·.isPunctuator ",") = false) :
    (params (n + 1)).Takes line pos [t] rest := by
  have hparam := takes_param (.name hname) h fun _ => hdots
  refine hparam.maybe.bind fun pos' h' => ?_
  exact ((fails_expect h' hcomma).maybe h').bind fun _ h'' => takes_pure h'' _

/-- Parameters are read as from the tokens that remain, if there are turns enough. -/
theorem takes_params {n : Nat} (h : Remains line pos rest) (hn : rest.length ≤ n) :
    (params (n + 1)).Takes line pos (readParams rest).1 (readParams rest).2 := by
  fun_induction readParams rest generalizing n pos with
  | case1 => exact ((fails_param h rfl rfl).maybe h).bind fun _ h' => takes_pure h' _
  -- Dots alone end the list.
  | case2 t rest dots =>
    have hparam := takes_param (.dots dots) h Bool.noConfusion
    exact hparam.maybe.bind fun _ h' => takes_pure h' _
  | case3 t _ name => exact takes_params_last h name rfl rfl
  -- So do dots behind a name.
  | case4 t _ name d more dots =>
    have hparam := takes_param (.namedDots name dots) h Bool.noConfusion
    exact hparam.maybe.bind fun _ h' => takes_pure h' _
  | case5 t _ name d more hdots comma ps last hread ih =>
    -- The name and the comma are taken in one turn, so there are turns enough for the rest.
    rw [List.length_cons, List.length_cons] at hn
    obtain ⟨m, rfl⟩ : ∃ m, n = m + 1 := Nat.exists_eq_succ_of_ne_zero (by omega)
    have hparam := takes_param (.name name) h fun _ => Bool.eq_false_iff.2 hdots
    refine hparam.maybe.bind fun pos' h' => ?_
    refine (takes_expect h' comma).maybe.bind fun pos'' h'' => ?_
    have hlength : more.length ≤ m := by omega
    have hmore := ih h'' hlength
    rw [hread] at hmore
    exact hmore.map _
  | case6 t _ name d more hdots hcomma =>
    exact takes_params_last h name (Bool.eq_false_iff.2 hdots) (Bool.eq_false_iff.2 hcomma)
  -- Neither a name nor dots: no parameter is left.
  | case7 t rest hdots name =>
    have hfails := fails_param h (Bool.eq_false_iff.2 name) (Bool.eq_false_iff.2 hdots)
    exact (hfails.maybe h).bind fun _ h' => takes_pure h' _

/-- A line in which something stands before the parameters has turns enough for them. -/
private theorem takes_params_line (h : Remains line pos rest) (hlt : rest.length < line.length) :
    (params line.length).Takes line pos (readParams rest).1 (readParams rest).2 := by
  obtain ⟨n, hn⟩ : ∃ n, line.length = n + 1 := Nat.exists_eq_succ_of_ne_zero (by omega)
  rw [hn]
  exact takes_params h (by omega)

/-- A parameter list is read as from the tokens that remain. -/
private theorem reads_signature (h : Remains line pos rest) :
    signature.Reads line pos (pure (readSignature? rest)) := by
  refine reads_expect_bind h ?_ ?_ ?_
  · rintro t more pos' rfl opening h'
    rw [readSignature?, opening]
    cases t.prevWhite with
    | true => exact fails_failure
    | false =>
      refine (takes_read h').bind fun pos₁ h₁ => ?_
      -- Before the parameters stands at least the parenthesis.
      have hlength : more.length < line.length := h.suffix.length_le
      refine (takes_params_line h₁ hlength).bind fun pos₂ h₂ => ?_
      generalize readParams more = r at h₂
      obtain ⟨ps, last⟩ := r
      refine reads_expect_bind h₂ ?_ ?_ ?_
      · -- The list is closed.
        rintro c last pos₃ rfl closing h₃
        simp only [Bool.not_false, Bool.and_self, if_true, closing]
        exact takes_pure h₃ _
      · -- Something else stands where it should be closed, and the whole list is refused.
        rintro c last rfl closing
        simp only [Bool.not_false, Bool.and_self, if_true, closing]
        rfl
      · rintro rfl
        rfl
  · rintro t more rfl opening
    rw [readSignature?, opening]
    rfl
  · rintro rfl
    rfl

/-- A definition is read as from the tokens that remain, with or without a parameter list. -/
theorem reads_definition (h : Remains line pos rest) :
    definition.Reads line pos (pure (readDefinition rest).toOption) := by
  refine reads_expect_bind h ?_ ?_ ?_
  · rintro t more pos' rfl name h'
    rw [readDefinition, if_pos name]
    -- Without a list the position is where it was behind the name.
    have hsignature := reads_signature h'
    cases hread : readSignature? more with
    | none =>
      rw [hread] at hsignature
      exact (Fails.maybe hsignature h').bind fun _ h'' => takes_pure h'' _
    | some r =>
      rw [hread] at hsignature
      exact (Takes.maybe hsignature).bind fun _ h'' => takes_pure h'' _
  · rintro t more rfl name
    rw [readDefinition, name]
    rfl
  · rintro rfl
    rfl

/-- Brackets are read as from the tokens that remain. -/
private theorem reads_bracketed (h : Remains line pos rest) :
    bracketed.Reads line pos (pure (readBracketed? rest)) := by
  refine reads_expect_bind h ?_ ?_ ?_
  · rintro t more pos' rfl opening h'
    refine (takes_takeUntil h').bind fun pos'' h'' => ?_
    rw [readBracketed?, if_pos opening]
    -- The line ends before a bracket closes, or the first that does is taken.
    cases hdrop : more.dropWhile (!·.isPunctuator ">") with
    | nil =>
      rw [hdrop] at h''
      exact Fails.bind (fails_expect h'' rfl)
    | cons c last =>
      have hclosing : c.isPunctuator ">" = true := by
        have hstops := List.head?_dropWhile_not (!·.isPunctuator ">") more
        simpa [hdrop] using hstops
      rw [hdrop] at h''
      exact (takes_expect h'' hclosing).bind fun _ hlast => takes_pure hlast _
  · rintro t more rfl opening
    rw [readBracketed?, opening]
    rfl
  · rintro rfl
    rfl

/-- A literal that names a header is read as from the tokens that remain. -/
private theorem reads_quotedHeader (h : Remains line pos rest) :
    quotedHeader.Reads line pos (pure (readQuotedHeader? rest)) := by
  refine reads_expect_bind h ?_ ?_ ?_
  · -- A literal is taken, and refused if it has an encoding or is empty.
    rintro t more pos' rfl hkind h'
    rw [readQuotedHeader?, hkind, Bool.true_and]
    cases t.encoding.isEmpty && !t.content.isEmpty with
    | false => exact fails_failure
    | true => exact takes_pure h' _
  · rintro t more rfl hkind
    rw [readQuotedHeader?, hkind]
    rfl
  · rintro rfl
    rfl

/-- The two ways to say that there is no such literal agree. -/
private theorem toOption_readLiteral (ts : List Token) :
    (readLiteral ts).toOption = readQuotedHeader? ts := by
  rw [readLiteral]
  cases readQuotedHeader? ts with
  | none => rfl
  | some r => rfl

/-- A header name is read as from the tokens that remain. -/
theorem reads_headerName (h : Remains line pos rest) :
    headerName.Reads line pos (pure (readHeaderName rest).toOption) := by
  apply Reads.restoring
  have hbrackets := reads_bracketed h
  -- Brackets with a text are a name; without one the literal is looked for behind them.
  rcases readHeaderName_cases rest with ⟨t, inside, last, hbracketed, htext, hread⟩ |
    ⟨inside, last, hbracketed, htext, hread⟩ | ⟨hnone, hread⟩
  · rw [hbracketed.readBracketed?_eq] at hbrackets
    refine Takes.bind (Takes.orBack hbrackets _) fun pos' h' => ?_
    rw [hread, Token.spelling_cons, if_pos htext]
    exact takes_pure h' _
  · rw [hbracketed.readBracketed?_eq] at hbrackets
    refine Takes.bind (Takes.orBack hbrackets _) fun pos' h' => ?_
    rw [hread, toOption_readLiteral, if_neg (not_not_intro htext)]
    exact reads_quotedHeader h'
  · -- Without brackets the literal is looked for where the header name starts.
    have hunbracketed : readBracketed? rest = none := by
      refine Option.eq_none_iff_forall_ne_some.2 fun r hr => hnone ⟨r.1, r.2, ?_⟩
      exact readBracketed?_eq_some_iff.1 hr
    rw [hunbracketed] at hbrackets
    refine Takes.bind (Fails.orBack hbrackets (takes_pure h [])) fun pos' h' => ?_
    rw [hread, toOption_readLiteral]
    exact reads_quotedHeader h'

/-- The operands of an include directive are read as from the tokens that remain. -/
private theorem reads_target (h : Remains line pos rest) :
    target.Reads line pos (pure (Production.readTarget? rest)) := by
  have hname := reads_headerName h
  unfold Production.readTarget?
  cases hread : readHeaderName rest with
  | ok r =>
    rw [hread] at hname
    exact Takes.orBack (Takes.map hname _) _
  | error e =>
    rw [hread] at hname
    -- What is no header name is computed, unless nothing is there.
    refine Fails.orBack (Fails.bind hname) ((takes_ahead h).bind fun pos' h' => ?_)
    cases rest with
    | nil => exact fails_failure
    | cons t more => exact (takes_takeRest h').map _

/-- The name of a test is read as from the tokens that remain. -/
private theorem reads_test {word : String} (h : Remains line pos rest) :
    (test word).Reads line pos (some <$> Production.readTest word line rest) := by
  -- Both ways of naming nothing leave the tokens alone and make the same note.
  have hmissing : (expect Token.isName).Fails line pos → (test word).Reads line pos
      ⟨some (none, rest), [.noMacroName (line.head?.elim "" (·.file))
        (line.head?.elim 0 (·.line)) word]⟩ := by
    intro hfails
    exact (hfails.maybe h).bind fun pos' h' => agrees_taken h' none _
  cases rest with
  | nil => exact hmissing (fails_expect h rfl)
  | cons t more =>
    rw [Production.readTest]
    cases name : t.isName with
    | true => exact (takes_expect h name).maybe.bind fun _ h' => takes_pure h' _
    | false => exact hmissing (fails_expect h name)

end Scan

/-! ## Reading lines -/

namespace Production

open Scan

variable {line rest : List Token} {pos : Nat}

/-- What follows the word of a directive is read as from the tokens that remain. -/
private theorem reads_scanOperands (p : Production) (word : Token) (h : Remains line pos rest) :
    (p.scanOperands word).Reads line pos (p.readOperands line word rest) := by
  cases p with
  | ifdef => exact (reads_test h).map _
  | ifndef => exact (reads_test h).map _
  | elifdef => exact (reads_test h).map _
  | elifndef => exact (reads_test h).map _
  | ifTrue => exact (takes_takeRest h).map _
  | elifTrue => exact (takes_takeRest h).map _
  | otherwise => exact takes_pure h _
  | endif => exact takes_pure h _
  -- A definition that cannot be read is given up without a trace.
  | define =>
    have hdefinition := reads_definition h
    rw [readOperands]
    cases hread : readDefinition rest with
    | ok r =>
      rw [hread] at hdefinition
      exact Takes.bind hdefinition fun _ h' => (takes_takeRest h').map _
    | error e =>
      rw [hread] at hdefinition
      exact Fails.bind hdefinition
  | undef =>
    refine reads_expect_bind h ?_ ?_ ?_
    · rintro t more pos' rfl name h'
      rw [readOperands, name]
      exact takes_pure h' _
    · rintro t more rfl name
      rw [readOperands, name]
      rfl
    · rintro rfl
      rfl
  -- A header name that cannot be read is given up in the same way.
  | inclusion =>
    have htarget := reads_target h
    rw [readOperands]
    cases hread : readTarget? rest with
    | none =>
      rw [hread] at htarget
      exact Fails.bind htarget
    | some r =>
      rw [hread] at htarget
      exact Takes.map htarget _
  | pragma => exact (takes_takeRest h).map _

/-- A directive of one form is read as from the tokens that remain. -/
private theorem reads_scan (p : Production) (line : List Token) (pos : Nat) :
    p.scan.Reads line pos (p.read? line (line.drop pos)) := by
  apply Reads.restoring
  cases hdrop : line.drop pos with
  | nil => exact Fails.bind (fails_of_eq (runAt_expect_of_not (by rw [hdrop]; rfl)))
  | cons word rest =>
    -- Only a form whose word stands there goes on to its operands.
    refine reads_expect_bind (.of_drop_cons hdrop) ?_ ?_ (fun h => nomatch h)
    · rintro t more pos' ⟨⟩ hword h'
      rw [read?, if_pos hword]
      exact p.reads_scanOperands word h'
    · rintro t more ⟨⟩ hword
      rw [read?, hword]
      rfl

/-- A form that fails puts the position back. -/
theorem restores_scan (p : Production) (line : List Token) (pos : Nat) :
    p.scan.Restores line pos :=
  restores_restoring _ line pos

/-- A form is read as from the tokens that remain. -/
theorem runAt_scan (p : Production) (line : List Token) (pos : Nat) :
    p.scan.runAt line pos = placed line pos <$> p.read? line (line.drop pos) :=
  (p.reads_scan line pos).runAt_eq (p.restores_scan line pos)

end Production

section Lines

open Scan

variable {line rest : List Token} {pos : Nat}

/-- The note on tokens that remain behind a directive. -/
def extraNotes (line rest : List Token) : List Note :=
  if rest.isEmpty then [] else [.extraTokens (String.join (line.map (·.value)))]

/-- The first form is tried, and the others if it refuses. -/
theorem readDirective_cons (line rest : List Token) (p : Production) (ps : List Production) :
    readDirective line rest (p :: ps) = p.read? line rest >>= fun v =>
      v.elim (readDirective line rest ps) fun v => ⟨v, extraNotes line v.2⟩ := by
  rw [readDirective]
  congr
  funext v
  rcases v with _ | ⟨d, _ | ⟨t, last⟩⟩
  · rfl
  · rfl
  · rfl

/-- Noting what remains behind a directive leaves the position. -/
private theorem runAt_noteExtra (line : List Token) (pos : Nat) (d : Directive) :
    (do noteExtra; pure d : Scan Directive).runAt line pos =
      ⟨(some d, pos), extraNotes line (line.drop pos)⟩ := by
  rw [runAt_bind, noteExtra, runAt_bind, runAt_ahead]
  cases line.drop pos with
  | nil => rfl
  | cons t rest => rfl

/-- What is noted are the tokens that remain. -/
private theorem reads_noteExtra (h : Remains line pos rest) (d : Directive) :
    (do noteExtra; pure d : Scan Directive).Reads line pos
      ⟨some (d, rest), extraNotes line rest⟩ := by
  unfold Reads
  rw [runAt_noteExtra, h.drop]
  exact agrees_taken h d _

/-- Since each form goes back by itself, all are tried on the same tokens. -/
private theorem reads_scanDirective (ps : List Production) (h : Remains line pos rest) :
    (scanDirective ps).Reads line pos (some <$> readDirective line rest ps) := by
  induction ps with
  | nil => exact takes_pure h _
  | cons p ps ih =>
    -- The first form with its note, which fails only if the form does.
    have hscan := p.reads_scan line pos
    rw [h.drop] at hscan
    have hfirst := hscan.bind fun d last pos' _ hlast => reads_noteExtra hlast d
    have hback : (do let d ← p.scan; noteExtra; pure d : Scan Directive).Restores line pos := by
      refine (p.restores_scan line pos).bind fun d pos' => ?_
      rw [runAt_noteExtra]
      exact Option.some_ne_none d
    have hsame : some <$> readDirective line rest (p :: ps) =
        ((p.read? line rest >>= fun v => v.elim (pure none) fun v =>
          ⟨some (v.1, v.2), extraNotes line v.2⟩) >>= fun v =>
          v.elim (some <$> readDirective line rest ps) fun v => pure (some v)) := by
      rw [readDirective_cons]
      rcases p.read? line rest with ⟨_ | v, notes⟩
      · exact Noted.ext rfl (by simp)
      · exact Noted.ext rfl (by simp)
    rw [hsame]
    exact hfirst.orElse hback ih

/-- A line that starts with `#` is read as a directive. -/
theorem parseLineWith_of_hash (ps : List Production) {t : Token} (ht : t.isHash = true)
    (rest : List Token) : parseLineWith ps (t :: rest) =
      (fun r => .ok (⟨t :: rest, r.1⟩, r.2)) <$> readDirective (t :: rest) rest ps := by
  rw [parseLineWith, if_pos ht]

/-- Any other line is refused. -/
theorem parseLineWith_of_not_hash (ps : List Production)
    (h : line.head?.any Token.isHash = false) :
    parseLineWith ps line = pure (.error .notDirective) := by
  cases line with
  | nil => rfl
  | cons t rest =>
    have ht : ¬t.isHash = true := Bool.eq_false_iff.1 h
    rw [parseLineWith, if_neg ht]

/-- A line that starts with `#` is read as from its tokens. -/
theorem reads_scanLine (ps : List Production) {t : Token} (ht : t.isHash = true)
    (rest : List Token) : (scanLine ps).Reads (t :: rest) 0
      ((fun r => some (⟨t :: rest, r.1⟩, r.2)) <$> readDirective (t :: rest) rest ps) := by
  refine (takes_expect (.start _) ht).bind fun pos' h' => ?_
  -- The mark is taken first, and the line is put together at the end.
  have hsame : (fun r => some (⟨t :: rest, r.1⟩, r.2)) <$> readDirective (t :: rest) rest ps =
      (some <$> readDirective (t :: rest) rest ps >>= fun v =>
        v.elim (pure none) fun v => pure (some (DirectiveLine.mk (t :: rest) v.1, v.2))) :=
    Noted.ext rfl (by simp)
  rw [hsame]
  refine Reads.bind (g := fun d last => pure (some (DirectiveLine.mk (t :: rest) d, last)))
    (reads_scanDirective ps h') fun d last pos'' _ hlast => ?_
  exact (takes_read hlast).bind fun _ hlast' => takes_pure hlast' _

/-- A line is read as from its tokens, and the position is behind what was taken. -/
theorem runAt_scanLine (ps : List Production) (line : List Token) :
    (scanLine ps).runAt line 0 = (fun r => placed line 0 r.toOption) <$> parseLineWith ps line := by
  cases hhash : line.head?.any Token.isHash with
  | false =>
    rw [parseLineWith_of_not_hash ps hhash, scanLine, runAt_bind, runAt_expect_of_not hhash]
    rfl
  | true =>
    cases line with
    | nil => cases hhash
    | cons t rest =>
      have hreads := reads_scanLine ps hhash rest
      -- Such a line is always read, so there is no failure to go back from.
      have hback : (scanLine ps).Restores (t :: rest) 0 := by
        intro hnone
        cases hreads.value.symm.trans hnone
      rw [hreads.runAt_eq hback, parseLineWith_of_hash ps hhash]
      exact Noted.ext rfl (by simp)

end Lines

end Preproc
