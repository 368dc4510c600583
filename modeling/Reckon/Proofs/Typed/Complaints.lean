import Reckon.Typed

/-!
What is reported about the operators of an expression. An operator without a row is left out, so
that an operator around it meets the type of what is left. With these types each operator is
judged by itself, and the reports are the judgements of all operators in postorder, those in
operands that are left out included. A resolver adds them to what it reported before, and nothing
else of what it reported before matters.
-/

set_option autoImplicit false
set_option relaxedAutoImplicit false

namespace Reckon

namespace Node

/-- The type of what is left of an expression. Where an operator has no row at the types of what
is left of its operands, that is the type of the operand, or of the left one of two. -/
def recoveredTy : Node → Ty
  | .literal _ value => value.elim .integer Value.ty
  | .unary operator operand =>
    (UnaryRule.find? operator.kind operand.recoveredTy).elim operand.recoveredTy UnaryRule.result
  | .binary left operator right =>
    (BinaryRule.find? operator.kind left.recoveredTy right.recoveredTy).elim left.recoveredTy
      BinaryRule.result
  | .group _ inner _ => inner.recoveredTy

/-- The nodes that have an operator, operands before their operator and from left to right. -/
def operatorNodes : Node → List Node
  | .literal _ _ => []
  | .unary operator operand => operand.operatorNodes ++ [.unary operator operand]
  | .binary left operator right =>
    left.operatorNodes ++ right.operatorNodes ++ [.binary left operator right]
  | .group _ inner _ => inner.operatorNodes

/-- What is wrong with the operator of a node, at the types of what is left of its operands. -/
def complaint? : Node → Option Diagnostic
  | .unary operator operand =>
    if UnaryRule.find? operator.kind operand.recoveredTy = none then
      some (.error operator.span (.undefinedUnary operator.text operand.recoveredTy))
    else none
  | .binary left operator right =>
    if BinaryRule.find? operator.kind left.recoveredTy right.recoveredTy = none then
      some (.error operator.span
        (.undefinedBinary operator.text left.recoveredTy right.recoveredTy))
    else none
  | .literal _ _ | .group _ _ _ => none

end Node

namespace Resolver

/-- Resolves expressions one after another, with one resolver for all of them. -/
def resolveAll : Resolver → List Node → List Typed × Resolver
  | r, [] => ([], r)
  | r, node :: nodes =>
    let first := r.resolve node
    let rest := first.2.resolveAll nodes
    (first.1 :: rest.1, rest.2)

section

variable (r : Resolver) (symbol : Token)

theorem fst_unary (operand : Typed) :
    (r.unary symbol operand).1 = (empty.unary symbol operand).1 := by
  unfold unary
  cases UnaryRule.find? symbol.kind operand.ty <;> rfl

theorem fst_binary (left right : Typed) :
    (r.binary left symbol right).1 = (empty.binary left symbol right).1 := by
  unfold binary
  cases BinaryRule.find? symbol.kind left.ty right.ty <;> rfl

theorem ty_unary (operand : Typed) :
    (r.unary symbol operand).1.ty =
      (UnaryRule.find? symbol.kind operand.ty).elim operand.ty UnaryRule.result := by
  unfold unary
  cases UnaryRule.find? symbol.kind operand.ty <;> rfl

theorem ty_binary (left right : Typed) :
    (r.binary left symbol right).1.ty =
      (BinaryRule.find? symbol.kind left.ty right.ty).elim left.ty BinaryRule.result := by
  unfold binary
  cases BinaryRule.find? symbol.kind left.ty right.ty <;> rfl

theorem reported_unary {operand : Node} {t : Typed} (ty : t.ty = operand.recoveredTy) :
    (r.unary symbol t).2.reported =
      r.reported ++ (Node.unary symbol operand).complaint?.toList := by
  rw [unary, ty, Node.complaint?]
  cases UnaryRule.find? symbol.kind operand.recoveredTy with
  | none => rfl
  | some rule => exact (List.append_nil _).symm

theorem reported_binary {left right : Node} {t u : Typed} (leftTy : t.ty = left.recoveredTy)
    (rightTy : u.ty = right.recoveredTy) :
    (r.binary t symbol u).2.reported =
      r.reported ++ (Node.binary left symbol right).complaint?.toList := by
  rw [binary, leftTy, rightTy, Node.complaint?]
  cases BinaryRule.find? symbol.kind left.recoveredTy right.recoveredTy with
  | none => rfl
  | some rule => exact (List.append_nil _).symm

end

theorem fst_resolve (r : Resolver) (node : Node) :
    (r.resolve node).1 = (empty.resolve node).1 := by
  induction node generalizing r with
  | literal _ _ => rfl
  | unary symbol operand ih => rw [resolve, resolve, fst_unary, ih r, ← fst_unary]
  | binary left symbol right ihl ihr =>
    simp only [resolve]
    rw [fst_binary, ihl r, ihr (r.resolve left).2, ← ihr (empty.resolve left).2, ← fst_binary]
  | group _ inner _ ih => exact ih r

theorem ty_resolve (r : Resolver) (node : Node) : (r.resolve node).1.ty = node.recoveredTy := by
  induction node generalizing r with
  | literal _ value => cases value <;> rfl
  | unary symbol operand ih => rw [resolve, ty_unary, ih, Node.recoveredTy]
  | binary left symbol right ihl ihr =>
    simp only [resolve]
    rw [ty_binary, ihl, ihr, Node.recoveredTy]
  | group _ inner _ ih => exact ih r

theorem reported_resolve (r : Resolver) (node : Node) :
    (r.resolve node).2.reported =
      r.reported ++ node.operatorNodes.filterMap Node.complaint? := by
  have last (node : Node) : [node].filterMap Node.complaint? = node.complaint?.toList := by
    cases found : node.complaint? <;> simp [found]
  induction node generalizing r with
  | literal _ _ => exact (List.append_nil _).symm
  | unary symbol operand ih =>
    rw [resolve, reported_unary _ _ (ty_resolve r operand), ih, Node.operatorNodes,
      List.filterMap_append, last, List.append_assoc]
  | binary left symbol right ihl ihr =>
    simp only [resolve]
    rw [reported_binary _ _ (ty_resolve r left) (ty_resolve _ right), ihr, ihl,
      Node.operatorNodes, List.filterMap_append, List.filterMap_append, last]
    simp only [List.append_assoc]
  | group _ inner _ ih => exact ih r

theorem resolveAll_eq (r : Resolver) (nodes : List Node) :
    r.resolveAll nodes =
      (nodes.map fun node => (empty.resolve node).1,
        ⟨r.reported ++ nodes.flatMap fun node => (empty.resolve node).2.reported⟩) := by
  induction nodes generalizing r with
  | nil => simp [resolveAll]
  | cons node nodes ih =>
    have added : (r.resolve node).2.reported =
        r.reported ++ (empty.resolve node).2.reported := by
      rw [reported_resolve r, reported_resolve empty]
      rfl
    simp only [resolveAll, ih, fst_resolve r, added, List.map_cons, List.flatMap_cons,
      List.append_assoc]

/-- What is reported about an expression are the complaints about its operators in postorder, after
all that was reported before, which changes neither the complaints nor the typed expression. So
one resolver for many expressions does what a new one does for each of them. -/
theorem reports_postorder_and_independent :
    (∀ (r : Resolver) (node : Node),
      (r.resolve node).2.reported =
        r.reported ++ node.operatorNodes.filterMap Node.complaint? ∧
      (r.resolve node).1.ty = node.recoveredTy ∧
      (r.resolve node).1 = (empty.resolve node).1) ∧
    ∀ (r : Resolver) (nodes : List Node),
      r.resolveAll nodes =
        (nodes.map fun node => (empty.resolve node).1,
          ⟨r.reported ++ nodes.flatMap fun node => (empty.resolve node).2.reported⟩) :=
  ⟨fun r node => ⟨reported_resolve r node, ty_resolve r node, fst_resolve r node⟩, resolveAll_eq⟩

end Resolver

end Reckon
