import Preproc.Proofs.Expansion.Painting
import Preproc.Proofs.Preprocessor.Recovery
import Preproc.Proofs.Preprocessor.Runs

/-!
# Conditions that test for names

A condition may ask which names are defined. The name that the operator `defined` asks for is a
macro whenever the answer is yes, so it would be replaced if anything looked at it as a name: by
nothing, by half an expression, or by further tests. It never is. The tests are answered first, by
the numbers 1 and 0, and if a condition consists of tests, constants and punctuators, no name is
left in it that could be expanded. So its truth depends on the names that are defined, and not on
what they are defined as.

`ConditionPart` is a part of such a condition, with the proof that it is one.

## Key results

- `splitQueries_parts`: each test is found, and nothing else asks a question
- `Context.expand_of_nameless`: tokens without names are expanded to themselves
- `Context.test_parts`: what such a condition is worth, and what testing it leaves
- `test_sees_names`: it is worth the same whatever the names stand for
-/

namespace Preproc

/-! ## Parts of a condition -/

/-- A test whether a name is defined: the operator, and the name, which may stand in parentheses. -/
structure DefinedTest where
  operator : Token
  name : Token
  parens : Option (Token × Token) := none
  operator_isName : operator.isName = true
  operator_value : operator.value = "defined"
  name_isName : name.isName = true
  parens_match : ∀ p ∈ parens, p.1.isPunctuator "(" = true ∧ p.2.isPunctuator ")" = true

/-- What is written after the operator. -/
def DefinedTest.operand (t : DefinedTest) : List Token :=
  t.parens.elim [t.name] fun p => [p.1, t.name, p.2]

/-- A part of a condition that only tests for names. -/
inductive ConditionPart where
  | test (t : DefinedTest)
  /-- A constant or a punctuator. -/
  | plain (t : Token)
      (kind : t.kind = .number ∨ t.kind = .character ∨ t.kind = .punctuator)

namespace ConditionPart

/-- The part as it is written. -/
def tokens : ConditionPart → List Token
  | test t => t.operator :: t.operand
  | plain t _ => [t]

/-- The part with a test replaced by 1 or 0, as the name is one of `names` or not. -/
def answered (names : List String) : ConditionPart → Token
  | test t => answerToken t.operator (names.contains t.name.value)
  | plain t _ => t

/-- The part as it is found in a condition. -/
def clause : ConditionPart → Clause
  | test t => .query t.operator (.defined t.name.value)
  | plain t _ => .token t

/-- Only which names there are matters. -/
private theorem answered_congr {names names' : List String}
    (h : ∀ name, name ∈ names ↔ name ∈ names') : answered names = answered names' := by
  funext part
  cases part with
  | test t =>
    have hcontains : names.contains t.name.value = names'.contains t.name.value := by
      rw [Bool.eq_iff_iff, List.contains_iff_mem, List.contains_iff_mem, h]
    rw [answered, hcontains, answered]
  | plain t kind => rfl

/-- No name is left once the tests are answered. -/
private theorem isName_answered (names : List String) (part : ConditionPart) :
    (part.answered names).isName = false := by
  cases part with
  | test t => rfl
  | plain t kind =>
    show t.isName = false
    rcases kind with h | h | h <;> simp [Token.isName, h]

end ConditionPart

/-! ## Finding and answering the tests -/

/-- The operand of a test is read to its end, whatever follows. -/
theorem DefinedTest.definedOperand?_append (t : DefinedTest) (rest : List Token) :
    definedOperand? (t.operand ++ rest) = some (t.name.value, t.operand.length) := by
  have hname := t.name_isName
  cases hparens : t.parens with
  | none => simp [operand, hparens, definedOperand?, hname]
  | some p =>
    -- An opening parenthesis is no name, so the name behind it is looked for.
    obtain ⟨hopen, hclose⟩ := t.parens_match p hparens
    have hnot : p.1.isName = false := by
      cases hp : p.1.isName with
      | false => rfl
      | true => simp [Token.isPunctuator_of_isName hp] at hopen
    simp [operand, hparens, definedOperand?, hnot, hopen, hname, hclose]

/-- One part is found, and the search goes on behind it. -/
private theorem splitQueries_part (part : ConditionPart) (rest : List Token) :
    splitQueries (part.tokens ++ rest) = (part.clause :: ·) <$> splitQueries rest := by
  cases part with
  | test t =>
    -- The test is found where its operator stands, and its operand is left out.
    have hoperator : isQueryOperator t.operator = true := by
      simp [isQueryOperator, t.operator_isName, t.operator_value]
    have hquery : query? t.operator (t.operand ++ rest) =
        pure (some (.defined t.name.value, t.operand.length)) := by
      simp [query?, t.operator_value, t.definedOperand?_append]
    rw [ConditionPart.tokens, List.cons_append, splitQueries, if_pos hoperator, hquery]
    show (Clause.query t.operator (.defined t.name.value) :: ·) <$>
      splitQueries ((t.operand ++ rest).drop t.operand.length) = _
    rw [List.drop_left]
    rfl
  | plain t kind =>
    -- Only names can be operators that ask.
    have hoperator : ¬isQueryOperator t = true := by
      rcases kind with h | h | h <;> simp [isQueryOperator, Token.isName, h]
    rw [ConditionPart.tokens, List.singleton_append, splitQueries, if_neg hoperator]
    rfl

/-- Each test of a condition is found, and nothing else in it asks a question. -/
theorem splitQueries_parts (parts : List ConditionPart) :
    splitQueries (parts.flatMap ConditionPart.tokens) = pure (parts.map ConditionPart.clause) := by
  induction parts with
  | nil => rw [List.flatMap_nil, splitQueries]; rfl
  | cons part rest ih => rw [List.flatMap_cons, splitQueries_part, ih]; rfl

/-- Whether a name is defined is whether it is one of the names in the table. -/
theorem MacroTable.isDefined_eq (table : MacroTable) (name : String) :
    table.isDefined name = table.names.contains name := by
  rw [Bool.eq_iff_iff, isDefined, names, List.contains_iff_mem, List.any_eq_true]
  simp

/-- Answering the tests asks for the names alone, and changes nothing. -/
private theorem answerQueries_parts (env : Environment) (file : String) (parts : List ConditionPart)
    (c : Context) : answerQueries (Context.answer env file) c (parts.map ConditionPart.clause) =
      (parts.map (ConditionPart.answered c.macros.names), c) := by
  induction parts with
  | nil => rfl
  | cons part rest ih =>
    cases part with
    -- Only this kind of part looks at the names, and neither changes the context.
    | test t =>
      simp only [List.map_cons, ConditionPart.clause, answerQueries, Context.answer, ih,
        ConditionPart.answered, MacroTable.isDefined_eq]
    | plain t kind =>
      simp only [List.map_cons, ConditionPart.clause, answerQueries, ih, ConditionPart.answered]

/-! ## Tokens without names -/

/-- A token that is no name stays as it is, in a condition too. -/
private theorem Expander.move_of_nameless {x : Expander} {t : Token} {s : Stack}
    (h : x.stack.next? = some (t, s)) (ht : t.isName = false) (env : Expansion) :
    x.move env = .emit t { x with stack := s } := by
  unfold move
  rw [h]
  simp [ht]

/-- From a single stream without names, each token goes to the output as it is. -/
private theorem expandFrom_of_nameless (env : Expansion) (x : Expander) (consumed : Nat)
    (ts : List Token) (hts : ∀ t ∈ ts, t.isName = false) (out : List Token) :
    expandFrom env { x with stack := [⟨none, consumed, ts⟩] } out =
      .ok (out.reverse ++ ts) { x with stack := [⟨none, consumed + ts.length, []⟩] } := by
  induction ts generalizing consumed out with
  | nil =>
    have hmove : Expander.move { x with stack := [⟨none, consumed, []⟩] } env =
        .finish { x with stack := [⟨none, consumed, []⟩] } := rfl
    rw [expandFrom_of_move_finish hmove, List.append_nil]
    rfl
  | cons t ts ih =>
    obtain ⟨ht, hrest⟩ := List.forall_mem_cons.1 hts
    -- The stream is no macro's replacement, so nothing is painted.
    have hnext : Stack.next? [⟨none, consumed, t :: ts⟩] =
        some (t, [⟨none, consumed + 1, ts⟩]) := by
      simp [Stack.next?, Stack.paint, ht]
    have hmove := Expander.move_of_nameless
      (x := { x with stack := [⟨none, consumed, t :: ts⟩] }) hnext ht env
    rw [expandFrom_of_move_emit hmove, ih (consumed + 1) hrest, List.length_cons,
      List.reverse_cons, List.append_assoc, List.singleton_append, Nat.add_right_comm,
      Nat.add_assoc]

/-- How an action ends, without what is known then. -/
def ContextM.outcome {α : Type} : EStateM.Result Failure Context α → Except Failure α
  | .ok a _ => .ok a
  | .error e _ => .error e

namespace Context

/-- Tokens without names are expanded to themselves, with any macros and within any limits. -/
theorem expand_of_nameless (env : Environment) (condition : Bool) {ts : List Token}
    (hts : ∀ t ∈ ts, t.isName = false) (c : Context) :
    expand env condition ts c = .ok ts c := by
  have hexpand := expandFrom_of_nameless (expansion env condition c)
    { count := c.macros.count, notes := c.notes } 0 ts hts []
  rw [expand_apply, Expander.expand, hexpand]
  rfl

/-- Such a condition is worth what is left of it when the tests are answered. Testing it changes
nothing, but for a note if it cannot be evaluated. -/
theorem test_parts (env : Environment) (file : String) (parts : List ConditionPart) (c : Context) :
    let left := holds env.nesting (parts.map (ConditionPart.answered c.macros.names))
    let tested := test env file (parts.flatMap ConditionPart.tokens) c
    ContextM.outcome tested = left.value.mapError (fun _ => .codeOverflow) ∧
      ContextM.left tested = c.noting left.notes := by
  -- After the tests are answered, expansion has nothing to do.
  have hnameless : ∀ t ∈ parts.map (ConditionPart.answered c.macros.names), t.isName = false := by
    intro t ht
    obtain ⟨part, -, rfl⟩ := List.mem_map.1 ht
    exact part.isName_answered _
  have hsplit : keep (splitQueries (parts.flatMap ConditionPart.tokens)) c =
      .ok (parts.map ConditionPart.clause) c := by
    rw [splitQueries_parts, keep_apply]
    simp [noting]
  -- So of the actions of a test only the last one, evaluation, matters.
  intro left tested
  have htested : tested = test env file (parts.flatMap ConditionPart.tokens) c := rfl
  rw [test, ContextM.bind_of_ok hsplit, ContextM.get_bind, answerQueries_parts] at htested
  dsimp only at htested
  rw [ContextM.set_bind, ContextM.bind_of_ok (expand_of_nameless env true hnameless c),
    ContextM.bind_of_ok (keep_apply _ c)] at htested
  rw [htested]
  cases left.value with
  | ok b => exact ⟨rfl, rfl⟩
  | error e => exact ⟨rfl, rfl⟩

end Context

/-- Let the same names be defined in two places, as whatever. A condition of tests, constants and
punctuators has the same outcome in both: that of the condition with each test replaced by 1 or 0.
Neither the limits, the files nor anything else that is known matters, as long as the host lets
expressions be nested as deeply, and testing the condition leaves all of it as it was. -/
theorem test_sees_names (env₁ env₂ : Environment) (file₁ file₂ : String)
    (parts : List ConditionPart) (c₁ c₂ : Context) (hhost : env₁.nesting = env₂.nesting)
    (hnames : ∀ name, name ∈ c₁.macros.names ↔ name ∈ c₂.macros.names) :
    let condition := parts.flatMap ConditionPart.tokens
    let left := holds env₁.nesting (parts.map (ConditionPart.answered c₁.macros.names))
    let tested₁ := Context.test env₁ file₁ condition c₁
    let tested₂ := Context.test env₂ file₂ condition c₂
    ContextM.outcome tested₁ = ContextM.outcome tested₂ ∧
      ContextM.outcome tested₁ = left.value.mapError (fun _ => .codeOverflow) ∧
      ContextM.left tested₁ = c₁.noting left.notes ∧
      ContextM.left tested₂ = c₂.noting left.notes := by
  intro condition left tested₁ tested₂
  -- The questions are answered alike, so the same expression is evaluated.
  have hanswered : ConditionPart.answered c₂.macros.names =
      ConditionPart.answered c₁.macros.names :=
    ConditionPart.answered_congr fun name => (hnames name).symm
  obtain ⟨houtcome₁, hleft₁⟩ := Context.test_parts env₁ file₁ parts c₁
  obtain ⟨houtcome₂, hleft₂⟩ := Context.test_parts env₂ file₂ parts c₂
  rw [hanswered, ← hhost] at houtcome₂ hleft₂
  exact ⟨houtcome₁.trans houtcome₂.symm, houtcome₁, hleft₁, hleft₂⟩

namespace NameTests

/-- The operator in front of a name, with or without parentheses. -/
def asks (name : String) (parens : Option (Token × Token))
    (parens_match : ∀ p ∈ parens, p.1.isPunctuator "(" = true ∧ p.2.isPunctuator ")" = true) :
    ConditionPart :=
  .test
    { operator := .word "defined", name := .word name, parens, operator_isName := rfl
      operator_value := rfl, name_isName := rfl, parens_match }

/-- The condition `defined E && !defined(F)`. -/
def parts : List ConditionPart :=
  [asks "E" none (by simp), .plain (.sign "&&") (by decide), .plain (.sign "!") (by decide),
    asks "F" (some (.sign "(", .sign ")")) (by decide)]

/-- The name `E` stands for nothing. -/
def empty : Context :=
  { macros := { macros := [.object "E" []] }, headers := {} }

/-- The name `E` takes an argument, and stands for half a test. -/
def unbalanced : Context :=
  { macros := { macros := [.function "E" ⟨["x"], false⟩ [true] [.sign ")", .word "defined"]] }
    headers := {} }

end NameTests

open NameTests in
/-- The macro `E` would leave no condition in either way, but it is only asked for. -/
theorem test_sees_names_unexpanded :
    (∀ name, name ∈ empty.macros.names ↔ name ∈ unbalanced.macros.names) ∧
    ContextM.outcome (Context.test Preprocessor.bare.env "t.c"
      (parts.flatMap ConditionPart.tokens) empty) = .ok true ∧
    ContextM.outcome (Context.test Preprocessor.bare.env "t.c"
      (parts.flatMap ConditionPart.tokens) unbalanced) = .ok true := by
  have hnames : ∀ name, name ∈ empty.macros.names ↔ name ∈ unbalanced.macros.names :=
    fun _ => Iff.rfl
  -- Only one of the two tests has to be computed.
  have htrue : (holds defaultNesting
      (parts.map (ConditionPart.answered empty.macros.names))).value.toOption = some true := by
    decide +kernel
  obtain ⟨hsame, hvalue, -⟩ := test_sees_names Preprocessor.bare.env Preprocessor.bare.env "t.c"
    "t.c" parts empty unbalanced rfl hnames
  cases hleft : (holds defaultNesting
      (parts.map (ConditionPart.answered empty.macros.names))).value with
  | error e =>
    rw [hleft] at htrue
    cases htrue
  | ok b =>
    rw [hleft] at htrue
    have hvalue := hvalue.trans (congrArg _ hleft)
    cases htrue
    exact ⟨hnames, hvalue, hsame.symm.trans hvalue⟩

end Preproc
