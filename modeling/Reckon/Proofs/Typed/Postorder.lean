import Reckon.Proofs.Typed.Exact

/-!
Evaluation in postorder, over unbounded integers. A typed expression is a row of steps, operands
before their operator and from left to right, which hold nothing of the symbols and types of its
rules. The steps are taken one after another on a stack of exact values, and the first that goes
wrong ends them. Every typed expression evaluates to what its steps give, also one whose rules are
in no table or whose types do not fit together.
-/

set_option autoImplicit false
set_option relaxedAutoImplicit false

namespace Reckon

/-- Whether an operation is meant for an operand of a type. -/
def UnaryOperation.Takes : UnaryOperation → Ty → Prop
  | .identity, operand | .negation, operand => operand = .integer
  | .logicalNegation, operand => operand = .boolean

instance UnaryOperation.decidableTakes : (operation : UnaryOperation) → (operand : Ty) →
    Decidable (operation.Takes operand)
  | .identity, _ | .negation, _ | .logicalNegation, _ => inferInstanceAs (Decidable (_ = _))

def BinaryOperation.Takes : BinaryOperation → Ty → Ty → Prop
  | .addition, left, right | .subtraction, left, right | .multiplication, left, right
  | .division, left, right => left = .integer ∧ right = .integer
  | .logicalAnd, left, right | .logicalOr, left, right => left = .boolean ∧ right = .boolean
  | .equals, left, right | .notEquals, left, right => left = right

instance BinaryOperation.decidableTakes : (operation : BinaryOperation) → (left right : Ty) →
    Decidable (operation.Takes left right)
  | .addition, _, _ | .subtraction, _, _ | .multiplication, _, _ | .division, _, _
  | .logicalAnd, _, _ | .logicalOr, _, _ => inferInstanceAs (Decidable (_ ∧ _))
  | .equals, _, _ | .notEquals, _, _ => inferInstanceAs (Decidable (_ = _))

@[simp] theorem Value.exact_inj {v w : Value} : v.exact = w.exact ↔ v = w := by
  cases v <;> cases w <;> simp [Value.exact, Int64.toInt_inj]

namespace Exact

def ty : Exact → Ty
  | .integer _ => .integer
  | .boolean _ => .boolean

/-- The value of the language that is equal to an exact one in range. -/
def value : Exact → Value
  | .integer n => .integer (Int64.ofInt n)
  | .boolean b => .boolean b

@[simp] theorem ty_exact (v : Value) : v.exact.ty = v.ty := by
  cases v <;> rfl

@[simp] theorem value_exact (v : Value) : v.exact.value = v := by
  cases v with
  | integer n => simp [Value.exact, value]
  | boolean b => rfl

/-- What becomes of the result of an operation that is meant for its operands: there is none for a
division by zero, and it has to be in range. -/
def settle (span : Span) : Option Exact → Except Failure Exact
  | none => .error (.divisionByZero span)
  | some result => if result.InRange then .ok result else .error (.overflow span)

theorem span_of_settle {span : Span} {exact : Option Exact} {failure : Failure}
    (failed : settle span exact = .error failure) : failure.span = span := by
  unfold settle at failed
  split at failed
  · cases failed
    rfl
  · split at failed
    · cases failed
    · cases failed
      rfl

theorem Agrees.map_exact {span : Span} {exact : Option Exact} {result : Except Failure Value}
    (agrees : Agrees (faults span exact) exact result) :
    result.map Value.exact = settle span exact := by
  cases exact with
  | none =>
    have failed : result = .error (.divisionByZero span) := agrees
    rw [failed]
    rfl
  | some exact =>
    by_cases range : exact.InRange
    · rw [faults, if_pos range] at agrees
      obtain ⟨value, defined, done⟩ := agrees
      rw [settle, if_pos range, done, Option.some.inj defined]
      rfl
    · rw [faults, if_neg range] at agrees
      have failed : result = .error (.overflow span) := agrees
      rw [settle, if_neg range, failed]
      rfl

end Exact

namespace UnaryOperation

/-- An operation over unbounded integers. An operand that it is not meant for is refused first. -/
def perform (operation : UnaryOperation) (operand : Exact) (span : Span) :
    Except Failure Exact :=
  if operation.Takes operand.ty then Exact.settle span (operation.exact operand)
  else .error (.invalidOperand operation operand.value span)

theorem span_of_perform {operation : UnaryOperation} {operand : Exact} {span : Span}
    {failure : Failure} (failed : operation.perform operand span = .error failure) :
    failure.span = span := by
  unfold perform at failed
  split at failed
  · exact Exact.span_of_settle failed
  · cases failed
    rfl

private theorem exists_row_of_takes {operation : UnaryOperation} {operand : Ty}
    (takes : operation.Takes operand) :
    ∃ rule ∈ UnaryRule.table, rule.operation = operation ∧ rule.operand = operand := by
  cases operation <;> cases takes <;> decide

private theorem apply_of_not_takes {operation : UnaryOperation} {operand : Value}
    (misfit : ¬ operation.Takes operand.ty) (span : Span) :
    operation.apply operand span = .error (.invalidOperand operation operand span) := by
  unfold apply
  split
  · exact absurd rfl misfit
  · exact absurd rfl misfit
  · exact absurd rfl misfit
  · rfl

theorem map_exact_apply (operation : UnaryOperation) (operand : Value) (span : Span) :
    (operation.apply operand span).map Value.exact = operation.perform operand.exact span := by
  by_cases takes : operation.Takes operand.ty
  · obtain ⟨rule, row, rfl, fits⟩ := exists_row_of_takes takes
    have agrees := UnaryRule.agrees_apply row span fits.symm
    rw [perform, Exact.ty_exact, if_pos takes]
    exact agrees.map_exact
  · rw [perform, Exact.ty_exact, if_neg takes, Exact.value_exact, apply_of_not_takes takes]
    rfl

end UnaryOperation

namespace BinaryOperation

def perform (operation : BinaryOperation) (left right : Exact) (span : Span) :
    Except Failure Exact :=
  if operation.Takes left.ty right.ty then Exact.settle span (operation.exact left right)
  else .error (.invalidOperands operation left.value right.value span)

theorem span_of_perform {operation : BinaryOperation} {left right : Exact} {span : Span}
    {failure : Failure} (failed : operation.perform left right span = .error failure) :
    failure.span = span := by
  unfold perform at failed
  split at failed
  · exact Exact.span_of_settle failed
  · cases failed
    rfl

private theorem exists_row_of_takes {operation : BinaryOperation} {left right : Ty}
    (takes : operation.Takes left right) :
    ∃ rule ∈ BinaryRule.table,
      rule.operation = operation ∧ rule.left = left ∧ rule.right = right := by
  cases operation <;> cases left <;> cases right <;> revert takes <;> decide

section

variable {operation : BinaryOperation} {left right : Value}

private theorem arithmetic_of_not_integers (misfit : ¬ (left.ty = .integer ∧ right.ty = .integer))
    (span : Span) :
    operation.arithmetic left right span =
      .error (.invalidOperands operation left right span) := by
  unfold arithmetic
  split
  · exact absurd ⟨rfl, rfl⟩ misfit
  · exact absurd ⟨rfl, rfl⟩ misfit
  · exact absurd ⟨rfl, rfl⟩ misfit
  · exact absurd ⟨rfl, rfl⟩ misfit
  · rfl

private theorem logic_of_not_booleans (misfit : ¬ (left.ty = .boolean ∧ right.ty = .boolean))
    (span : Span) :
    operation.logic left right span = .error (.invalidOperands operation left right span) := by
  unfold logic
  split
  · exact absurd ⟨rfl, rfl⟩ misfit
  · exact absurd ⟨rfl, rfl⟩ misfit
  · rfl

private theorem apply_of_not_takes (misfit : ¬ operation.Takes left.ty right.ty) (span : Span) :
    operation.apply left right span = .error (.invalidOperands operation left right span) := by
  cases operation with
  | addition => exact arithmetic_of_not_integers misfit span
  | subtraction => exact arithmetic_of_not_integers misfit span
  | multiplication => exact arithmetic_of_not_integers misfit span
  | division => exact arithmetic_of_not_integers misfit span
  | logicalAnd => exact logic_of_not_booleans misfit span
  | logicalOr => exact logic_of_not_booleans misfit span
  | equals => exact if_pos misfit
  | notEquals => exact if_pos misfit

end

theorem map_exact_apply (operation : BinaryOperation) (left right : Value) (span : Span) :
    (operation.apply left right span).map Value.exact =
      operation.perform left.exact right.exact span := by
  by_cases takes : operation.Takes left.ty right.ty
  · obtain ⟨rule, row, rfl, leftFits, rightFits⟩ := exists_row_of_takes takes
    have agrees := BinaryRule.agrees_apply row span leftFits.symm rightFits.symm
    rw [perform, Exact.ty_exact, Exact.ty_exact, if_pos takes]
    exact agrees.map_exact
  · rw [perform, Exact.ty_exact, Exact.ty_exact, if_neg takes, Exact.value_exact,
      Exact.value_exact, apply_of_not_takes takes]
    rfl

end BinaryOperation

namespace Typed

inductive Step
  | literal (value : Value)
  | unary (operation : UnaryOperation) (span : Span)
  | binary (operation : BinaryOperation) (span : Span)
  deriving DecidableEq

/-- The steps of an expression, operands before their operator and from left to right. -/
def steps : Typed → List Step
  | .literal value => [.literal value]
  | .unary rule operand span => operand.steps ++ [.unary rule.operation span]
  | .binary left rule right span =>
    left.steps ++ (right.steps ++ [.binary rule.operation span])

namespace Step

def span? : Step → Option Span
  | .literal _ => none
  | .unary _ span | .binary _ span => some span

/-- Takes one step. The operands of an operation are on top of the stack, the last one first; a
step without its operands does nothing. -/
def take : List Exact → Step → Except Failure (List Exact)
  | stack, .literal value => .ok (value.exact :: stack)
  | operand :: stack, .unary operation span =>
    (operation.perform operand span).map (· :: stack)
  | right :: left :: stack, .binary operation span =>
    (operation.perform left right span).map (· :: stack)
  | stack, _ => .ok stack

/-- Takes steps one after another, up to the first that goes wrong. -/
def run (stack : List Exact) (steps : List Step) : Except Failure (List Exact) :=
  steps.foldlM take stack

private theorem eq_error_of_map {α β : Type} {result : Except Failure α} {f : α → β}
    {failure : Failure} (failed : result.map f = .error failure) : result = .error failure := by
  cases result with
  | ok _ => cases failed
  | error _ =>
    cases failed
    rfl

theorem span?_of_take {stack : List Exact} {step : Step} {failure : Failure}
    (failed : take stack step = .error failure) : step.span? = some failure.span := by
  unfold take at failed
  split at failed
  · cases failed
  · exact congrArg some (UnaryOperation.span_of_perform (eq_error_of_map failed)).symm
  · exact congrArg some (BinaryOperation.span_of_perform (eq_error_of_map failed)).symm
  · cases failed

theorem take_unary (operation : UnaryOperation) (operand : Value) (span : Span)
    (stack : List Exact) :
    take (operand.exact :: stack) (.unary operation span) =
      (operation.apply operand span).map fun value => value.exact :: stack := by
  rw [take, ← operation.map_exact_apply]
  cases operation.apply operand span <;> rfl

theorem take_binary (operation : BinaryOperation) (left right : Value) (span : Span)
    (stack : List Exact) :
    take (right.exact :: left.exact :: stack) (.binary operation span) =
      (operation.apply left right span).map fun value => value.exact :: stack := by
  rw [take, ← operation.map_exact_apply]
  cases operation.apply left right span <;> rfl

theorem run_append (stack : List Exact) (before after : List Step) :
    run stack (before ++ after) = run stack before >>= (run · after) :=
  List.foldlM_append

theorem run_cons (stack : List Exact) (step : Step) (rest : List Step) :
    run stack (step :: rest) = take stack step >>= (run · rest) :=
  List.foldlM_cons

theorem run_singleton (stack : List Exact) (step : Step) : run stack [step] = take stack step := by
  simp [run]

theorem run_eq_error_iff {stack : List Exact} {steps : List Step} {failure : Failure} :
    run stack steps = .error failure ↔ ∃ before step after reached,
      steps = before ++ step :: after ∧ run stack before = .ok reached ∧
        take reached step = .error failure := by
  constructor
  · intro failed
    induction steps generalizing stack with
    | nil => cases failed
    | cons first rest ih =>
      rw [run_cons] at failed
      cases taken : take stack first with
      | error _ =>
        rw [taken] at failed
        exact ⟨[], first, rest, stack, rfl, rfl, taken.trans failed⟩
      | ok next =>
        rw [taken] at failed
        obtain ⟨before, step, after, reached, rfl, went, wrong⟩ := ih failed
        refine ⟨first :: before, step, after, reached, rfl, ?_, wrong⟩
        rw [run_cons, taken]
        exact went
  · rintro ⟨before, step, after, reached, rfl, went, wrong⟩
    rw [run_append, went]
    change run reached (step :: after) = _
    rw [run_cons, wrong]
    rfl

end Step

/-- The steps of an expression leave its value on the stack, or fail as it does. -/
theorem run_steps (typed : Typed) (stack : List Exact) :
    Step.run stack typed.steps = typed.eval.map fun value => value.exact :: stack := by
  induction typed generalizing stack with
  | literal value => rfl
  | unary rule operand span ih =>
    rw [steps, Step.run_append, ih, eval]
    cases operand.eval with
    | error failure => rfl
    | ok value =>
      change Step.run (value.exact :: stack) [.unary rule.operation span] = _
      rw [Step.run_singleton, Step.take_unary]
      rfl
  | binary left rule right span ihl ihr =>
    rw [steps, Step.run_append, ihl, eval]
    cases left.eval with
    | error failure => rfl
    | ok first =>
      change Step.run (first.exact :: stack) (right.steps ++ [.binary rule.operation span]) = _
      rw [Step.run_append, ihr]
      cases right.eval with
      | error failure => rfl
      | ok second =>
        change Step.run (second.exact :: first.exact :: stack) [.binary rule.operation span] = _
        rw [Step.run_singleton, Step.take_binary]
        rfl

theorem eval_eq_ok_iff {typed : Typed} {value : Value} :
    typed.eval = .ok value ↔ Step.run [] typed.steps = .ok [value.exact] := by
  rw [run_steps]
  cases typed.eval with
  | ok other => simp [Except.map, Value.exact_inj]
  | error failure => simp [Except.map]

theorem eval_eq_error_iff {typed : Typed} {failure : Failure} :
    typed.eval = .error failure ↔ Step.run [] typed.steps = .error failure := by
  rw [run_steps]
  cases typed.eval with
  | ok value => simp [Except.map]
  | error other => simp [Except.map]

/-- An expression evaluates to the exact value that its steps leave, if none of them goes wrong, and
otherwise to the failure of the first that does, told at the place of its symbol. Nothing else of
the expression counts. -/
theorem eval_iff_run_steps (typed : Typed) :
    (∀ value : Value, typed.eval = .ok value ↔ Step.run [] typed.steps = .ok [value.exact]) ∧
    (∀ failure : Failure, typed.eval = .error failure ↔
      ∃ before step after stack, typed.steps = before ++ step :: after ∧
        Step.run [] before = .ok stack ∧ Step.take stack step = .error failure ∧
          step.span? = some failure.span) ∧
    ∀ other : Typed, other.steps = typed.steps → other.eval = typed.eval := by
  refine ⟨fun _ => eval_eq_ok_iff, fun failure => ?_, fun other same => ?_⟩
  · rw [eval_eq_error_iff, Step.run_eq_error_iff]
    constructor
    · rintro ⟨before, step, after, stack, split, went, wrong⟩
      exact ⟨before, step, after, stack, split, went, wrong, Step.span?_of_take wrong⟩
    · rintro ⟨before, step, after, stack, split, went, wrong, -⟩
      exact ⟨before, step, after, stack, split, went, wrong⟩
  · cases done : typed.eval with
    | ok value =>
      rw [eval_eq_ok_iff, ← same] at done
      exact eval_eq_ok_iff.mpr done
    | error failure =>
      rw [eval_eq_error_iff, ← same] at done
      exact eval_eq_error_iff.mpr done

end Typed

end Reckon
