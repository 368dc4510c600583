import Reckon.Proofs.Typed.Soundness

/-!
Operations over unbounded integers. An operation of the tables, applied to values that fit its
row, gives the exact result whenever that is in range, and otherwise fails as the exact result
says: for a division by zero, or for an overflow.
-/

set_option autoImplicit false
set_option relaxedAutoImplicit false

namespace Reckon

inductive Exact
  | integer (n : Int)
  | boolean (b : Bool)
  deriving DecidableEq

def Value.exact : Value → Exact
  | .integer n => .integer n.toInt
  | .boolean b => .boolean b

/-- The result of an operation, if it has one: there is none for operands of other types, nor for
a division by zero. -/
def UnaryOperation.exact : UnaryOperation → Exact → Option Exact
  | .identity, .integer n => some (.integer n)
  | .negation, .integer n => some (.integer (-n))
  | .logicalNegation, .boolean b => some (.boolean !b)
  | _, _ => none

@[inherit_doc UnaryOperation.exact]
def BinaryOperation.exact : BinaryOperation → Exact → Exact → Option Exact
  | .addition, .integer a, .integer b => some (.integer (a + b))
  | .subtraction, .integer a, .integer b => some (.integer (a - b))
  | .multiplication, .integer a, .integer b => some (.integer (a * b))
  | .division, .integer a, .integer b => if b = 0 then none else some (.integer (a.tdiv b))
  | .logicalAnd, .boolean a, .boolean b => some (.boolean (a && b))
  | .logicalOr, .boolean a, .boolean b => some (.boolean (a || b))
  | .equals, .integer a, .integer b => some (.boolean (a = b))
  | .equals, .boolean a, .boolean b => some (.boolean (a = b))
  | .notEquals, .integer a, .integer b => some (.boolean (a ≠ b))
  | .notEquals, .boolean a, .boolean b => some (.boolean (a ≠ b))
  | _, _, _ => none

namespace Exact

def InRange : Exact → Prop
  | .integer n => Int64.minValue.toInt ≤ n ∧ n ≤ Int64.maxValue.toInt
  | .boolean _ => True

instance : DecidablePred InRange
  | .integer _ => inferInstanceAs (Decidable (_ ∧ _))
  | .boolean _ => inferInstanceAs (Decidable True)

/-- What is wrong with the result of an operation at a place, whose operands fit it. -/
def faults (span : Span) : Option Exact → List Failure
  | none => [.divisionByZero span]
  | some result => if result.InRange then [] else [.overflow span]

/-- A result agrees with exact evaluation: it is the first of all faults, or, if there are none,
the exact value. -/
def Agrees (faults : List Failure) (exact : Option Exact) (result : Except Failure Value) : Prop :=
  match faults with
  | [] => ∃ value : Value, exact = some value.exact ∧ result = .ok value
  | failure :: _ => result = .error failure

theorem Agrees.bind {faults more : List Failure} {value? : Option Exact}
    {next : Exact → Option Exact} {result : Except Failure Value}
    {step : Value → Except Failure Value} (first : Agrees faults value? result)
    (rest : ∀ value : Value, value? = some value.exact → result = .ok value →
      Agrees more (next value.exact) (step value)) :
    Agrees (faults ++ more) (value? >>= next) (result >>= step) := by
  cases faults with
  | nil =>
    obtain ⟨value, defined, done⟩ := first
    have agrees := rest value defined done
    rw [defined, done]
    exact agrees
  | cons failure _ =>
    have failed : result = .error failure := first
    rw [failed]
    exact rfl

theorem agrees_ofExact (n : Int) (span : Span) :
    Agrees (faults span (some (.integer n))) (some (.integer n)) (Value.ofExact n span) := by
  by_cases range : (Exact.integer n).InRange
  · have narrowed : narrow? n = some (Int64.ofInt n) := if_pos range
    rw [faults, if_pos range, Value.ofExact, narrowed]
    refine ⟨.integer (Int64.ofInt n), ?_, rfl⟩
    rw [Value.exact, toInt_of_narrow? narrowed]
  · have narrowed : narrow? n = none := if_neg range
    rw [faults, if_neg range, Value.ofExact, narrowed]
    exact rfl

theorem agrees_boolean (b : Bool) (span : Span) :
    Agrees (faults span (some (.boolean b))) (some (.boolean b)) (.ok (.boolean b)) :=
  ⟨.boolean b, rfl, rfl⟩

end Exact

theorem UnaryRule.agrees_apply {rule : UnaryRule} (row : rule ∈ UnaryRule.table) (span : Span)
    {operand : Value} (fits : operand.ty = rule.operand) :
    Exact.Agrees (Exact.faults span (rule.operation.exact operand.exact))
      (rule.operation.exact operand.exact) (rule.operation.apply operand span) := by
  simp only [UnaryRule.table, List.mem_cons, List.not_mem_nil, or_false] at row
  rcases row with rfl | rfl | rfl
  · obtain ⟨n, rfl⟩ := Value.eq_integer_of_ty fits
    have agrees := Exact.agrees_ofExact n.toInt span
    rwa [Value.ofExact, narrow?_toInt] at agrees
  · obtain ⟨n, rfl⟩ := Value.eq_integer_of_ty fits
    exact Exact.agrees_ofExact _ span
  · obtain ⟨b, rfl⟩ := Value.eq_boolean_of_ty fits
    exact Exact.agrees_boolean _ span

namespace BinaryOperation

variable {operation : BinaryOperation}

private theorem agrees_arithmetic
    (arithmetic : operation ∈ [.addition, .subtraction, .multiplication, .division])
    (a b : Int64) (span : Span) :
    Exact.Agrees (Exact.faults span (operation.exact (.integer a.toInt) (.integer b.toInt)))
      (operation.exact (.integer a.toInt) (.integer b.toInt))
      (operation.apply (.integer a) (.integer b) span) := by
  simp only [List.mem_cons, List.not_mem_nil, or_false] at arithmetic
  rcases arithmetic with rfl | rfl | rfl | rfl
  · exact Exact.agrees_ofExact _ span
  · exact Exact.agrees_ofExact _ span
  · exact Exact.agrees_ofExact _ span
  · by_cases zero : b = 0
    · subst zero
      exact rfl
    · have nonzero : b.toInt ≠ 0 := fun h => zero (Int64.toInt_inj.mp h)
      simp only [exact, apply, BinaryOperation.arithmetic, if_neg zero, if_neg nonzero]
      exact Exact.agrees_ofExact _ span

private theorem agrees_logic (logic : operation ∈ [.logicalAnd, .logicalOr]) (a b : Bool)
    (span : Span) :
    Exact.Agrees (Exact.faults span (operation.exact (.boolean a) (.boolean b)))
      (operation.exact (.boolean a) (.boolean b))
      (operation.apply (.boolean a) (.boolean b) span) := by
  simp only [List.mem_cons, List.not_mem_nil, or_false] at logic
  rcases logic with rfl | rfl
  · exact Exact.agrees_boolean _ span
  · exact Exact.agrees_boolean _ span

private theorem exact_equality (equality : operation ∈ [.equals, .notEquals]) {left right : Value}
    (same : left.ty = right.ty) (span : Span) :
    ∃ b, operation.exact left.exact right.exact = some (.boolean b) ∧
      operation.apply left right span = .ok (.boolean b) := by
  simp only [List.mem_cons, List.not_mem_nil, or_false] at equality
  cases left with
  | integer a =>
    obtain ⟨b, rfl⟩ := Value.eq_integer_of_ty same.symm
    rcases equality with rfl | rfl
    · exact ⟨_, rfl, by simp [apply, BinaryOperation.equality, Value.ty, Int64.toInt_inj]⟩
    · exact ⟨_, rfl, by simp [apply, BinaryOperation.equality, Value.ty, Int64.toInt_inj]⟩
  | boolean a =>
    obtain ⟨b, rfl⟩ := Value.eq_boolean_of_ty same.symm
    rcases equality with rfl | rfl
    · exact ⟨_, rfl, by simp [apply, BinaryOperation.equality, Value.ty]⟩
    · exact ⟨_, rfl, by simp [apply, BinaryOperation.equality, Value.ty]⟩

end BinaryOperation

theorem BinaryRule.agrees_apply {rule : BinaryRule} (row : rule ∈ BinaryRule.table) (span : Span)
    {left right : Value} (leftFits : left.ty = rule.left) (rightFits : right.ty = rule.right) :
    Exact.Agrees (Exact.faults span (rule.operation.exact left.exact right.exact))
      (rule.operation.exact left.exact right.exact) (rule.operation.apply left right span) := by
  rcases BinaryRule.form_of_mem_table rule row with
    ⟨operation, leftTy, rightTy, -⟩ | ⟨operation, leftTy, rightTy, -⟩ | ⟨operation, same, -⟩
  · obtain ⟨a, rfl⟩ := Value.eq_integer_of_ty (leftFits.trans leftTy)
    obtain ⟨b, rfl⟩ := Value.eq_integer_of_ty (rightFits.trans rightTy)
    exact BinaryOperation.agrees_arithmetic operation a b span
  · obtain ⟨a, rfl⟩ := Value.eq_boolean_of_ty (leftFits.trans leftTy)
    obtain ⟨b, rfl⟩ := Value.eq_boolean_of_ty (rightFits.trans rightTy)
    exact BinaryOperation.agrees_logic operation a b span
  · have types : left.ty = right.ty := leftFits.trans (same.trans rightFits.symm)
    obtain ⟨b, result, applied⟩ := BinaryOperation.exact_equality operation types span
    rw [result, applied]
    exact Exact.agrees_boolean b span

end Reckon
