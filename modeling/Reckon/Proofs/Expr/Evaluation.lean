import Reckon.Analysis
import Reckon.Proofs.Expr.Rendering

/-!
What becomes of the text of an expression. A well-typed expression evaluates to its exact value,
or fails as its first fault says, at the place of the operator at fault; any other is rejected.
-/

set_option autoImplicit false
set_option relaxedAutoImplicit false

namespace Reckon

theorem UnaryRule.find?_of_mem_table :
    ∀ rule ∈ UnaryRule.table, UnaryRule.find? rule.symbol rule.operand = some rule := by
  decide

theorem BinaryRule.find?_of_mem_table :
    ∀ rule ∈ BinaryRule.table, BinaryRule.find? rule.symbol rule.left rule.right = some rule := by
  decide

theorem UnarySymbol.operation_eq (symbol : UnarySymbol) :
    ∀ rule ∈ UnaryRule.table, rule.symbol = symbol.kind → symbol.operation = rule.operation := by
  cases symbol <;> decide

theorem BinarySymbol.operation?_eq (symbol : BinarySymbol) :
    ∀ rule ∈ BinaryRule.table, rule.symbol = symbol.kind →
      symbol.operation? = some rule.operation := by
  cases symbol <;> decide

namespace Expr

/-- The type of an expression, if it is well typed. -/
def ty? : Expr → Option Ty
  | .number _ _ => some .integer
  | .truth _ => some .boolean
  | .unary symbol operand => do
    let rule ← UnaryRule.find? symbol.kind (← operand.ty?)
    return rule.result
  | .binary left symbol right => do
    let rule ← BinaryRule.find? symbol.kind (← left.ty?) (← right.ty?)
    return rule.result

theorem hasType_iff (e : Expr) (ty : Ty) : e.HasType ty ↔ e.ty? = some ty := by
  constructor
  · intro typed
    induction typed with
    | number n small => rfl
    | truth b => rfl
    | unary row stands _ ih =>
      have found := UnaryRule.find?_of_mem_table _ row
      simp [ty?, ih, ← stands, found]
    | binary row stands _ _ ihl ihr =>
      have found := BinaryRule.find?_of_mem_table _ row
      simp [ty?, ihl, ihr, ← stands, found]
  · intro computed
    induction e generalizing ty with
    | number n small =>
      obtain rfl := Option.some.inj computed
      exact .number n small
    | truth b =>
      obtain rfl := Option.some.inj computed
      exact .truth b
    | unary symbol operand ih =>
      simp only [ty?, bind, Option.bind_eq_some_iff] at computed
      obtain ⟨inner, operandTy, rule, found, result⟩ := computed
      obtain ⟨row, stands, rfl⟩ := UnaryRule.of_find?_eq_some found
      obtain rfl := Option.some.inj result
      exact .unary row stands (ih _ operandTy)
    | binary left symbol right ihl ihr =>
      simp only [ty?, bind, Option.bind_eq_some_iff] at computed
      obtain ⟨first, leftTy, second, rightTy, rule, found, result⟩ := computed
      obtain ⟨row, stands, rfl, rfl⟩ := BinaryRule.of_find?_eq_some found
      obtain rfl := Option.some.inj result
      exact .binary row stands (ihl _ leftTy) (ihr _ rightTy)

instance (e : Expr) (ty : Ty) : Decidable (e.HasType ty) :=
  decidable_of_iff (e.ty? = some ty) (e.hasType_iff ty).symm

end Expr

namespace Resolver

theorem isPrefix_reported_unary (r : Resolver) (symbol : Token) (operand : Typed) :
    r.reported <+: (r.unary symbol operand).2.reported := by
  unfold unary
  split
  · exact List.prefix_refl _
  · exact List.prefix_append _ _

theorem isPrefix_reported_binary (r : Resolver) (left : Typed) (symbol : Token) (right : Typed) :
    r.reported <+: (r.binary left symbol right).2.reported := by
  unfold binary
  split
  · exact List.prefix_refl _
  · exact List.prefix_append _ _

theorem isPrefix_reported_resolve (r : Resolver) (node : Node) :
    r.reported <+: (r.resolve node).2.reported := by
  induction node generalizing r with
  | literal _ _ => exact List.prefix_refl _
  | unary symbol operand ih => exact (ih r).trans (isPrefix_reported_unary _ _ _)
  | binary left symbol right ihl ihr =>
    exact ((ihl r).trans (ihr _)).trans (isPrefix_reported_binary _ _ _ _)
  | group _ inner _ ih => exact ih r

theorem unary_of_mem_table (r : Resolver) {symbol : Token} {operand : Typed} {rule : UnaryRule}
    (row : rule ∈ UnaryRule.table) (stands : rule.symbol = symbol.kind)
    (fits : operand.ty = rule.operand) :
    r.unary symbol operand = (.unary rule operand symbol.span, r) := by
  rw [unary, ← stands, fits, UnaryRule.find?_of_mem_table rule row]

theorem binary_of_mem_table (r : Resolver) {symbol : Token} {left right : Typed} {rule : BinaryRule}
    (row : rule ∈ BinaryRule.table) (stands : rule.symbol = symbol.kind)
    (leftFits : left.ty = rule.left) (rightFits : right.ty = rule.right) :
    r.binary left symbol right = (.binary left rule right symbol.span, r) := by
  rw [binary, ← stands, leftFits, rightFits, BinaryRule.find?_of_mem_table rule row]

theorem row_of_unary_clean {r : Resolver} {symbol : Token} {operand : Node}
    (clean : (r.resolve (.unary symbol operand)).2.reported = r.reported) :
    (r.resolve operand).2.reported = r.reported ∧
    ∃ rule ∈ UnaryRule.table, rule.symbol = symbol.kind ∧
      (r.resolve operand).1.ty = rule.operand ∧
      (r.resolve (.unary symbol operand)).1.ty = rule.result := by
  have inner := r.isPrefix_reported_resolve operand
  rw [resolve] at clean ⊢
  generalize r.resolve operand = resolved at clean inner ⊢
  obtain ⟨t, s⟩ := resolved
  have outer := s.isPrefix_reported_unary symbol t
  have same : s.reported = r.reported := Diagnostic.eq_of_prefix_of_prefix inner outer clean
  cases found : UnaryRule.find? symbol.kind t.ty with
  | some rule =>
    obtain ⟨row, stands, fits⟩ := UnaryRule.of_find?_eq_some found
    refine ⟨same, rule, row, stands, fits.symm, ?_⟩
    rw [s.unary_of_mem_table row stands fits.symm]
    rfl
  | none => simp [unary, found, report, Diagnostic.report, same] at clean

theorem row_of_binary_clean {r : Resolver} {symbol : Token} {left right : Node}
    (clean : (r.resolve (.binary left symbol right)).2.reported = r.reported) :
    (r.resolve left).2.reported = r.reported ∧
    ((r.resolve left).2.resolve right).2.reported = (r.resolve left).2.reported ∧
    ∃ rule ∈ BinaryRule.table, rule.symbol = symbol.kind ∧
      (r.resolve left).1.ty = rule.left ∧ ((r.resolve left).2.resolve right).1.ty = rule.right ∧
      (r.resolve (.binary left symbol right)).1.ty = rule.result := by
  have first := r.isPrefix_reported_resolve left
  rw [resolve] at clean ⊢
  generalize r.resolve left = leftResolved at clean first ⊢
  obtain ⟨t, s⟩ := leftResolved
  have second := s.isPrefix_reported_resolve right
  dsimp only at clean first ⊢
  generalize s.resolve right = rightResolved at clean second ⊢
  obtain ⟨u, q⟩ := rightResolved
  have outer := q.isPrefix_reported_binary t symbol u
  have leftSame : s.reported = r.reported :=
    Diagnostic.eq_of_prefix_of_prefix first (second.trans outer) clean
  have rightSame : q.reported = r.reported :=
    Diagnostic.eq_of_prefix_of_prefix (first.trans second) outer clean
  cases found : BinaryRule.find? symbol.kind t.ty u.ty with
  | some rule =>
    obtain ⟨row, stands, leftFits, rightFits⟩ := BinaryRule.of_find?_eq_some found
    refine ⟨leftSame, rightSame.trans leftSame.symm, rule, row, stands, leftFits.symm,
      rightFits.symm, ?_⟩
    rw [q.binary_of_mem_table row stands leftFits.symm rightFits.symm]
    rfl
  | none => simp [binary, found, report, Diagnostic.report, rightSame] at clean

theorem resolve_enclose (r : Resolver) (places : Nat → Span) (enclosed : Bool) (i size : Nat)
    (inner : Node) : r.resolve (.enclose places enclosed i size inner) = r.resolve inner := by
  cases enclosed <;> rfl

end Resolver

namespace Expr

variable (places : Nat → Span)

/-- A well-typed expression is resolved with nothing to report, and the typed expression agrees
with exact evaluation. -/
theorem HasType.resolve_node {e : Expr} {ty : Ty} (typed : e.HasType ty) (i : Nat) (r : Resolver) :
    ∃ t : Typed, r.resolve (e.node places i) = (t, r) ∧ t.ty = ty ∧ t.WellTyped ∧
      Exact.Agrees (e.faults places i) e.exact t.eval := by
  induction typed generalizing i with
  | number n small =>
    obtain ⟨m, decimal, same⟩ := Lexeme.decimal?_text_number small
    have value : Placed.literal .number (Lexeme.number n).text = some (.integer m) := by
      rw [Placed.literal, decimal, Option.getD_some]
    refine ⟨.literal (.integer m), ?_, rfl, .literal _, .integer m, ?_, rfl⟩
    · change (Typed.literal ((Placed.literal .number (Lexeme.number n).text).getD _), r) = _
      rw [value, Option.getD_some]
    · rw [Expr.exact, Value.exact, same]
  | truth b =>
    refine ⟨.literal (.boolean b), ?_, rfl, .literal _, .boolean b, rfl, rfl⟩
    cases b with
    | true => rfl
    | false => rfl
  | @unary symbol operand rule row stands _ ih =>
    obtain ⟨t, resolved, fits, wellTyped, agrees⟩ :=
      ih (inside (operand.loose (symbol.kind.signTier + 1)) (i + 1))
    refine ⟨.unary rule t (places i), ?_, rfl, .unary _ row fits wellTyped, ?_⟩
    · rw [node, Resolver.resolve, Resolver.resolve_enclose, resolved]
      exact r.unary_of_mem_table row stands fits
    · refine agrees.bind fun value defined done => ?_
      have valueFits := (wellTyped.ty_eq_of_eval done).trans fits
      rw [defined, symbol.operation_eq rule row stands]
      exact UnaryRule.agrees_apply row (places i) valueFits
  | @binary left symbol right rule row stands _ _ ihl ihr =>
    obtain ⟨t, leftResolved, leftFits, leftTyped, leftAgrees⟩ :=
      ihl (inside (left.loose symbol.kind.infixTier) i)
    obtain ⟨u, rightResolved, rightFits, rightTyped, rightAgrees⟩ :=
      ihr (inside (right.loose (symbol.kind.infixTier + 1)) (middle i left symbol + 1))
    refine ⟨.binary t rule u (places (middle i left symbol)), ?_, rfl,
      .binary _ row leftFits rightFits leftTyped rightTyped, ?_⟩
    · simp only [node, Resolver.resolve, Resolver.resolve_enclose, leftResolved, rightResolved]
      exact r.binary_of_mem_table row stands leftFits rightFits
    · refine leftAgrees.bind fun first firstDefined firstDone => ?_
      refine rightAgrees.bind fun second secondDefined secondDone => ?_
      have firstFits := (leftTyped.ty_eq_of_eval firstDone).trans leftFits
      have secondFits := (rightTyped.ty_eq_of_eval secondDone).trans rightFits
      have operation : symbol.exact = rule.operation.exact := by
        funext a b
        rw [BinarySymbol.exact, symbol.operation?_eq rule row stands, Option.bind_some]
      rw [firstDefined, secondDefined, operation]
      exact BinaryRule.agrees_apply row _ firstFits secondFits

end Expr

namespace Layout

def faults (layout : Layout) (e : Expr) : List Failure :=
  e.faults (layout.places e.lexemes) 0

end Layout

end Reckon
