import Reckon.Typed

/-!
Type soundness. Resolving gives a well-typed expression whatever it is given and whatever it has
to report, since an operator without a rule leaves an operand behind that was well typed already.
A well-typed expression fails at most for arithmetic reasons, and its value is of its type.
-/

set_option autoImplicit false
set_option relaxedAutoImplicit false

namespace Reckon

theorem UnaryRule.of_find?_eq_some {symbol : Token.Kind} {operand : Ty} {rule : UnaryRule}
    (found : UnaryRule.find? symbol operand = some rule) :
    rule ∈ UnaryRule.table ∧ rule.symbol = symbol ∧ rule.operand = operand := by
  have matched := List.find?_some found
  exact ⟨List.mem_of_find?_eq_some found, of_decide_eq_true matched⟩

theorem BinaryRule.of_find?_eq_some {symbol : Token.Kind} {left right : Ty} {rule : BinaryRule}
    (found : BinaryRule.find? symbol left right = some rule) :
    rule ∈ BinaryRule.table ∧ rule.symbol = symbol ∧ rule.left = left ∧ rule.right = right := by
  have matched := List.find?_some found
  exact ⟨List.mem_of_find?_eq_some found, of_decide_eq_true matched⟩

/-- Every operator is a row of its table, and every operand is of the type that the row asks
for. -/
inductive Typed.WellTyped : Typed → Prop
  | literal (value : Value) : WellTyped (.literal value)
  | unary {rule : UnaryRule} {operand : Typed} (span : Span)
      (row : rule ∈ UnaryRule.table) (fits : operand.ty = rule.operand)
      (inner : WellTyped operand) : WellTyped (.unary rule operand span)
  | binary {left right : Typed} {rule : BinaryRule} (span : Span)
      (row : rule ∈ BinaryRule.table) (leftFits : left.ty = rule.left)
      (rightFits : right.ty = rule.right) (first : WellTyped left) (second : WellTyped right) :
      WellTyped (.binary left rule right span)

namespace Resolver

theorem wellTyped_unary (r : Resolver) (symbol : Token) {operand : Typed}
    (inner : operand.WellTyped) : (r.unary symbol operand).1.WellTyped := by
  unfold unary
  split
  next rule found =>
    obtain ⟨row, -, fits⟩ := UnaryRule.of_find?_eq_some found
    exact .unary symbol.span row fits.symm inner
  next => exact inner

theorem wellTyped_binary (r : Resolver) (symbol : Token) {left right : Typed}
    (first : left.WellTyped) (second : right.WellTyped) :
    (r.binary left symbol right).1.WellTyped := by
  unfold binary
  split
  next rule found =>
    obtain ⟨row, -, leftFits, rightFits⟩ := BinaryRule.of_find?_eq_some found
    exact .binary symbol.span row leftFits.symm rightFits.symm first second
  next => exact first

theorem wellTyped_resolve (r : Resolver) (node : Node) : (r.resolve node).1.WellTyped := by
  induction node generalizing r with
  | literal _ value => exact .literal _
  | unary symbol operand ih => exact wellTyped_unary _ symbol (ih r)
  | binary left symbol right ihl ihr => exact wellTyped_binary _ symbol (ihl r) (ihr _)
  | group _ inner _ ih => exact ih r

end Resolver

/-- The failures that no type rules out. -/
def Failure.IsArithmetic : Failure → Prop
  | .divisionByZero _ | .overflow _ => True
  | .invalidOperand _ _ _ | .invalidOperands _ _ _ _ => False

/-- A result that a type allows: a value of the type, or an arithmetic failure. -/
def Ty.Allows (ty : Ty) : Except Failure Value → Prop
  | .ok value => value.ty = ty
  | .error failure => failure.IsArithmetic

theorem Ty.allows_bind {inner outer : Ty} {result : Except Failure Value}
    {next : Value → Except Failure Value} (allowed : inner.Allows result)
    (step : ∀ value : Value, value.ty = inner → outer.Allows (next value)) :
    outer.Allows (result >>= next) := by
  cases result with
  | ok value => exact step value allowed
  | error failure => exact allowed

theorem Value.allows_ofExact (n : Int) (span : Span) :
    Ty.integer.Allows (Value.ofExact n span) := by
  unfold Value.ofExact
  split
  · exact rfl
  · exact trivial

theorem Value.eq_integer_of_ty {value : Value} (fits : value.ty = .integer) :
    ∃ n, value = .integer n := by
  cases value with
  | integer n => exact ⟨n, rfl⟩
  | boolean b => cases fits

theorem Value.eq_boolean_of_ty {value : Value} (fits : value.ty = .boolean) :
    ∃ b, value = .boolean b := by
  cases value with
  | integer n => cases fits
  | boolean b => exact ⟨b, rfl⟩

theorem UnaryRule.allows_apply {rule : UnaryRule} (row : rule ∈ UnaryRule.table) (span : Span)
    {operand : Value} (fits : operand.ty = rule.operand) :
    rule.result.Allows (rule.operation.apply operand span) := by
  simp only [UnaryRule.table, List.mem_cons, List.not_mem_nil, or_false] at row
  rcases row with rfl | rfl | rfl
  · obtain ⟨n, rfl⟩ := Value.eq_integer_of_ty fits
    exact rfl
  · obtain ⟨n, rfl⟩ := Value.eq_integer_of_ty fits
    exact Value.allows_ofExact _ span
  · obtain ⟨b, rfl⟩ := Value.eq_boolean_of_ty fits
    exact rfl

/-- The table has rows of three forms, one for each way in which two values are combined. -/
theorem BinaryRule.form_of_mem_table : ∀ rule ∈ BinaryRule.table,
    (rule.operation ∈ [.addition, .subtraction, .multiplication, .division] ∧
      rule.left = .integer ∧ rule.right = .integer ∧ rule.result = .integer) ∨
    (rule.operation ∈ [.logicalAnd, .logicalOr] ∧
      rule.left = .boolean ∧ rule.right = .boolean ∧ rule.result = .boolean) ∨
    (rule.operation ∈ [.equals, .notEquals] ∧
      rule.left = rule.right ∧ rule.result = .boolean) := by
  decide

namespace BinaryOperation

variable {operation : BinaryOperation}

theorem allows_arithmetic
    (arithmetic : operation ∈ [.addition, .subtraction, .multiplication, .division])
    (a b : Int64) (span : Span) :
    Ty.integer.Allows (operation.apply (.integer a) (.integer b) span) := by
  simp only [List.mem_cons, List.not_mem_nil, or_false] at arithmetic
  rcases arithmetic with rfl | rfl | rfl | rfl
  · exact Value.allows_ofExact _ span
  · exact Value.allows_ofExact _ span
  · exact Value.allows_ofExact _ span
  · simp only [apply, BinaryOperation.arithmetic]
    split
    · exact trivial
    · exact Value.allows_ofExact _ span

theorem allows_logic (logic : operation ∈ [.logicalAnd, .logicalOr]) (a b : Bool) (span : Span) :
    Ty.boolean.Allows (operation.apply (.boolean a) (.boolean b) span) := by
  simp only [List.mem_cons, List.not_mem_nil, or_false] at logic
  rcases logic with rfl | rfl
  · exact rfl
  · exact rfl

theorem allows_equality (equality : operation ∈ [.equals, .notEquals]) {left right : Value}
    (same : left.ty = right.ty) (span : Span) :
    Ty.boolean.Allows (operation.apply left right span) := by
  simp only [List.mem_cons, List.not_mem_nil, or_false] at equality
  rcases equality with rfl | rfl
  · rw [apply, BinaryOperation.equality, if_neg (not_not_intro same)]
    exact rfl
  · rw [apply, BinaryOperation.equality, if_neg (not_not_intro same)]
    exact rfl

end BinaryOperation

theorem BinaryRule.allows_apply {rule : BinaryRule} (row : rule ∈ BinaryRule.table) (span : Span)
    {left right : Value} (leftFits : left.ty = rule.left) (rightFits : right.ty = rule.right) :
    rule.result.Allows (rule.operation.apply left right span) := by
  rcases BinaryRule.form_of_mem_table rule row with
    ⟨operation, leftTy, rightTy, result⟩ | ⟨operation, leftTy, rightTy, result⟩ |
    ⟨operation, same, result⟩
  · obtain ⟨a, rfl⟩ := Value.eq_integer_of_ty (leftFits.trans leftTy)
    obtain ⟨b, rfl⟩ := Value.eq_integer_of_ty (rightFits.trans rightTy)
    rw [result]
    exact BinaryOperation.allows_arithmetic operation a b span
  · obtain ⟨a, rfl⟩ := Value.eq_boolean_of_ty (leftFits.trans leftTy)
    obtain ⟨b, rfl⟩ := Value.eq_boolean_of_ty (rightFits.trans rightTy)
    rw [result]
    exact BinaryOperation.allows_logic operation a b span
  · have types : left.ty = right.ty := leftFits.trans (same.trans rightFits.symm)
    rw [result]
    exact BinaryOperation.allows_equality operation types span

theorem Typed.WellTyped.allows_eval {typed : Typed} (wellTyped : typed.WellTyped) :
    typed.ty.Allows typed.eval := by
  induction wellTyped with
  | literal value => exact rfl
  | unary span row fits _ ih =>
    refine Ty.allows_bind ih fun value ty => ?_
    exact UnaryRule.allows_apply row span (ty.trans fits)
  | binary span row leftFits rightFits _ _ ihl ihr =>
    refine Ty.allows_bind ihl fun first firstTy => ?_
    refine Ty.allows_bind ihr fun second secondTy => ?_
    exact BinaryRule.allows_apply row span (firstTy.trans leftFits) (secondTy.trans rightFits)

theorem Typed.WellTyped.ty_eq_of_eval {typed : Typed} (wellTyped : typed.WellTyped) {value : Value}
    (done : typed.eval = .ok value) : value.ty = typed.ty := by
  have allowed := wellTyped.allows_eval
  rwa [done] at allowed

/-- Whatever is resolved, and whatever was reported before, the typed expression is well typed;
so its evaluation never meets operands that do not fit, and its value is of its type. -/
theorem Resolver.resolve_sound (r : Resolver) (node : Node) :
    (r.resolve node).1.WellTyped ∧
    (∀ (operation : UnaryOperation) (operand : Value) (span : Span),
      (r.resolve node).1.eval ≠ .error (.invalidOperand operation operand span)) ∧
    (∀ (operation : BinaryOperation) (left right : Value) (span : Span),
      (r.resolve node).1.eval ≠ .error (.invalidOperands operation left right span)) ∧
    ∀ value : Value, (r.resolve node).1.eval = .ok value → value.ty = (r.resolve node).1.ty := by
  have wellTyped := r.wellTyped_resolve node
  have allowed := wellTyped.allows_eval
  refine ⟨wellTyped, ?_, ?_, ?_⟩
  · intro operation operand span failed
    rw [failed] at allowed
    exact allowed
  · intro operation left right span failed
    rw [failed] at allowed
    exact allowed
  · intro value done
    exact wellTyped.ty_eq_of_eval done

end Reckon
