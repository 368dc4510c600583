import Reckon.Diagnostic
import Reckon.Node.Basic
import Reckon.Operator

/-!
Typed expressions: values, and operators of which the rule is known. Every expression is resolved
to one: an operator without a rule at the types of its operands is reported and left out.

Evaluation is exact, and a result out of range is a failure, as is a division by zero. Both operands
of an operator are always evaluated, the left one first.
-/

set_option autoImplicit false
set_option relaxedAutoImplicit false

namespace Reckon

inductive Typed
  | literal (value : Value)
  | unary (rule : UnaryRule) (operand : Typed) (span : Span)
  | binary (left : Typed) (rule : BinaryRule) (right : Typed) (span : Span)
  deriving DecidableEq

namespace Typed

def ty : Typed → Ty
  | .literal value => value.ty
  | .unary rule _ _ => rule.result
  | .binary _ rule _ _ => rule.result

end Typed

/-- What was reported about all expressions that were resolved so far. -/
structure Resolver where
  reported : List Diagnostic
  deriving DecidableEq

namespace Resolver

def empty : Resolver := ⟨[]⟩

def report (r : Resolver) (span : Span) (problem : Problem) : Resolver :=
  ⟨Diagnostic.report r.reported span problem⟩

/-- Resolves the operator `symbol` in front of an operand; without a rule, the operand is left. -/
def unary (r : Resolver) (symbol : Token) (operand : Typed) : Typed × Resolver :=
  match UnaryRule.find? symbol.kind operand.ty with
  | some rule => (.unary rule operand symbol.span, r)
  | none => (operand, r.report symbol.span (.undefinedUnary symbol.text operand.ty))

/-- Resolves the operator `symbol` between two operands; without a rule, the left one is left. -/
def binary (r : Resolver) (left : Typed) (symbol : Token) (right : Typed) : Typed × Resolver :=
  match BinaryRule.find? symbol.kind left.ty right.ty with
  | some rule => (.binary left rule right symbol.span, r)
  | none => (left, r.report symbol.span (.undefinedBinary symbol.text left.ty right.ty))

/-- Resolves an expression, operands first and from left to right. Parentheses leave no trace,
and a literal without a value counts as zero. -/
def resolve (r : Resolver) : Node → Typed × Resolver
  | .literal _ value => (.literal (value.getD (.integer 0)), r)
  | .unary symbol operand =>
    let inner := r.resolve operand
    inner.2.unary symbol inner.1
  | .binary left symbol right =>
    let first := r.resolve left
    let second := first.2.resolve right
    second.2.binary first.1 symbol second.1
  | .group _ inner _ => r.resolve inner

end Resolver

inductive Failure
  | divisionByZero (span : Span)
  | overflow (span : Span)
  | invalidOperand (operation : UnaryOperation) (operand : Value) (span : Span)
  | invalidOperands (operation : BinaryOperation) (left right : Value) (span : Span)
  deriving DecidableEq

namespace Failure

def span : Failure → Span
  | .divisionByZero span => span
  | .overflow span => span
  | .invalidOperand _ _ span => span
  | .invalidOperands _ _ _ span => span

def message : Failure → String
  | .divisionByZero span => "division by zero at " ++ span.render
  | .overflow span => "integer overflow at " ++ span.render
  | .invalidOperand operation operand span =>
    "internal error at " ++ span.render ++ ": " ++ operation.name ++ " cannot be applied to " ++
      operand.render
  | .invalidOperands operation left right span =>
    "internal error at " ++ span.render ++ ": " ++ operation.name ++ " cannot be applied to " ++
      left.render ++ " and " ++ right.render

end Failure

def Value.ofExact (n : Int) (span : Span) : Except Failure Value :=
  match narrow? n with
  | some m => .ok (.integer m)
  | none => .error (.overflow span)

def UnaryOperation.apply (operation : UnaryOperation) (operand : Value) (span : Span) :
    Except Failure Value :=
  match operation, operand with
  | .identity, .integer n => .ok (.integer n)
  | .negation, .integer n => Value.ofExact (-n.toInt) span
  | .logicalNegation, .boolean b => .ok (.boolean !b)
  | _, _ => .error (.invalidOperand operation operand span)

namespace BinaryOperation

/-- Arithmetic on two integers; division rounds toward zero. Every other operation is refused. -/
def arithmetic (operation : BinaryOperation) (left right : Value) (span : Span) :
    Except Failure Value :=
  match operation, left, right with
  | .addition, .integer a, .integer b => Value.ofExact (a.toInt + b.toInt) span
  | .subtraction, .integer a, .integer b => Value.ofExact (a.toInt - b.toInt) span
  | .multiplication, .integer a, .integer b => Value.ofExact (a.toInt * b.toInt) span
  | .division, .integer a, .integer b =>
    if b = 0 then .error (.divisionByZero span) else Value.ofExact (a.toInt.tdiv b.toInt) span
  | _, _, _ => .error (.invalidOperands operation left right span)

def logic (operation : BinaryOperation) (left right : Value) (span : Span) :
    Except Failure Value :=
  match operation, left, right with
  | .logicalAnd, .boolean a, .boolean b => .ok (.boolean (a && b))
  | .logicalOr, .boolean a, .boolean b => .ok (.boolean (a || b))
  | _, _, _ => .error (.invalidOperands operation left right span)

/-- Equality of two values of one type. Every other operation is refused. -/
def equality (operation : BinaryOperation) (left right : Value) (span : Span) :
    Except Failure Value :=
  if left.ty ≠ right.ty then .error (.invalidOperands operation left right span)
  else
    match operation with
    | .equals => .ok (.boolean (left = right))
    | .notEquals => .ok (.boolean (left ≠ right))
    | _ => .error (.invalidOperands operation left right span)

def apply (operation : BinaryOperation) (left right : Value) (span : Span) :
    Except Failure Value :=
  match operation with
  | .addition | .subtraction | .multiplication | .division =>
    operation.arithmetic left right span
  | .logicalAnd | .logicalOr => operation.logic left right span
  | .equals | .notEquals => operation.equality left right span

end BinaryOperation

/-- The value of an expression, or its first failure, operands before their operator and from
left to right. Only the operations of the rules count, not their types. -/
def Typed.eval : Typed → Except Failure Value
  | .literal value => .ok value
  | .unary rule operand span => do
    let value ← operand.eval
    rule.operation.apply value span
  | .binary left rule right span => do
    let first ← left.eval
    let second ← right.eval
    rule.operation.apply first second span

end Reckon
