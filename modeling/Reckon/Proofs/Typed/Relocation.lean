import Reckon.Proofs.Node.Relocation
import Reckon.Typed

/-!
Neither types nor values depend on places. If a tree is moved, then its typed expression and what is
reported of its types are moved, and so is the place of a failure.
-/

set_option autoImplicit false
set_option relaxedAutoImplicit false

namespace Reckon

section

variable (move : Span → Span)

def Typed.relocate : Typed → Typed
  | .literal value => .literal value
  | .unary rule operand span => .unary rule operand.relocate (move span)
  | .binary left rule right span => .binary left.relocate rule right.relocate (move span)

def Failure.relocate : Failure → Failure
  | .divisionByZero span => .divisionByZero (move span)
  | .overflow span => .overflow (move span)
  | .invalidOperand operation operand span => .invalidOperand operation operand (move span)
  | .invalidOperands operation left right span => .invalidOperands operation left right (move span)

def Resolver.relocate (r : Resolver) : Resolver :=
  ⟨r.reported.map (.relocate move)⟩

end

variable {move : Span → Span}

@[simp] theorem Typed.ty_relocate (t : Typed) : (t.relocate move).ty = t.ty := by
  cases t <;> rfl

namespace Resolver

theorem report_relocate (r : Resolver) (span : Span) (problem : Problem) :
    (r.relocate move).report (move span) problem = (r.report span problem).relocate move := by
  simp [report, relocate, Diagnostic.map_relocate_report]

theorem unary_relocate (r : Resolver) (symbol : Token) (operand : Typed) :
    (r.relocate move).unary (symbol.relocate move) (operand.relocate move) =
      ((r.unary symbol operand).1.relocate move, (r.unary symbol operand).2.relocate move) := by
  unfold unary
  rw [Token.kind_relocate, Typed.ty_relocate]
  split
  next => rfl
  next => exact congrArg (Prod.mk _) (r.report_relocate _ _)

theorem binary_relocate (r : Resolver) (left : Typed) (symbol : Token) (right : Typed) :
    (r.relocate move).binary (left.relocate move) (symbol.relocate move) (right.relocate move) =
      ((r.binary left symbol right).1.relocate move,
        (r.binary left symbol right).2.relocate move) := by
  unfold binary
  rw [Token.kind_relocate, Typed.ty_relocate, Typed.ty_relocate]
  split
  next => rfl
  next => exact congrArg (Prod.mk _) (r.report_relocate _ _)

theorem resolve_relocate (r : Resolver) (node : Node) :
    (r.relocate move).resolve (node.relocate move) =
      ((r.resolve node).1.relocate move, (r.resolve node).2.relocate move) := by
  induction node generalizing r with
  | literal _ _ => rfl
  | unary symbol operand ih =>
    simp only [Node.relocate, resolve, ih]
    exact unary_relocate _ _ _
  | binary left symbol right ihl ihr =>
    simp only [Node.relocate, resolve, ihl, ihr]
    exact binary_relocate _ _ _ _
  | group _ inner _ ih => exact ih r

end Resolver

theorem Value.ofExact_relocate (n : Int) (span : Span) :
    Value.ofExact n (move span) = (Value.ofExact n span).mapError (.relocate move) := by
  unfold Value.ofExact
  cases narrow? n <;> rfl

theorem UnaryOperation.apply_relocate (operation : UnaryOperation) (operand : Value)
    (span : Span) :
    operation.apply operand (move span) =
      (operation.apply operand span).mapError (.relocate move) := by
  unfold apply
  split
  · rfl
  · exact Value.ofExact_relocate _ _
  · rfl
  · rfl

namespace BinaryOperation

variable (operation : BinaryOperation) (left right : Value) (span : Span)

theorem arithmetic_relocate :
    operation.arithmetic left right (move span) =
      (operation.arithmetic left right span).mapError (.relocate move) := by
  unfold arithmetic
  split
  · exact Value.ofExact_relocate _ _
  · exact Value.ofExact_relocate _ _
  · exact Value.ofExact_relocate _ _
  · split
    · rfl
    · exact Value.ofExact_relocate _ _
  · rfl

theorem logic_relocate :
    operation.logic left right (move span) =
      (operation.logic left right span).mapError (.relocate move) := by
  unfold logic
  split <;> rfl

theorem equality_relocate :
    operation.equality left right (move span) =
      (operation.equality left right span).mapError (.relocate move) := by
  unfold equality
  split
  · rfl
  · split <;> rfl

theorem apply_relocate :
    operation.apply left right (move span) =
      (operation.apply left right span).mapError (.relocate move) := by
  cases operation with
  | addition | subtraction | multiplication | division =>
    exact arithmetic_relocate _ left right span
  | logicalAnd | logicalOr => exact logic_relocate _ left right span
  | equals | notEquals => exact equality_relocate _ left right span

end BinaryOperation

theorem Typed.eval_relocate (t : Typed) :
    (t.relocate move).eval = t.eval.mapError (.relocate move) := by
  induction t with
  | literal value => rfl
  | unary rule operand span ih =>
    rw [relocate, eval, ih, eval]
    cases operand.eval with
    | ok value => exact rule.operation.apply_relocate value span
    | error failure => rfl
  | binary left rule right span ihl ihr =>
    rw [relocate, eval, ihl, ihr, eval]
    cases left.eval with
    | error failure => rfl
    | ok first =>
      cases right.eval with
      | error failure => rfl
      | ok second => exact rule.operation.apply_relocate first second span

end Reckon
