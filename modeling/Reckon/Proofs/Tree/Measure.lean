import Reckon.Proofs.Expr.Evaluation
import Reckon.Proofs.Tree.Height
import Reckon.Proofs.Tree.Spans

/-!
Heights are counted exactly. Every step of parsing gives a node together with its height, whatever
it starts from: signs, parentheses and infix operators add a level to what was counted of their
operands, and an operator that is dropped leaves the count of its left operand. So the limit of
infix expressions holds of the trees themselves, and a tree gets two levels short of twice as high.
-/

set_option autoImplicit false
set_option relaxedAutoImplicit false

namespace Reckon

namespace Parser

def Parsed.Measured (p : Parsed) : Prop :=
  p.height = p.node.height

theorem measured_expression (room tier : Nat) (s : State) : (expression room tier s).Measured :=
  (reading_expression room tier s).height_eq

theorem measured_signed (room : Nat) (s : State) : (signed (expression room) s).Measured :=
  congrArg (· + 1) (measured_expression room s.current.kind.signTier s.advance)

theorem measured_group (room : Nat) (s : State) : (group (expression room) s).Measured :=
  congrArg (· + 1) (measured_expression room 0 s.advance)

theorem measured_literal (s : State) : (literal s).Measured := by
  unfold literal
  split
  · rfl
  · rfl

theorem measured_operand (room : Nat) (s : State) : (operand (expression room) s).Measured := by
  unfold operand
  split
  · exact measured_signed room s
  · split
    · exact measured_group room s
    · exact measured_literal s

end Parser

theorem Node.FoldsWithin.of_partOf {limit : Nat} {part node : Node}
    (folds : node.FoldsWithin limit) (inside : part.PartOf node) : part.FoldsWithin limit := by
  induction inside with
  | self => exact folds
  | @child child node below _ ih =>
    apply ih
    cases node with
    | literal _ _ => simp [children] at below
    | unary operator operand =>
      obtain rfl : child = operand := by simpa [children] using below
      exact folds
    | binary left operator right =>
      have either : child = left ∨ child = right := by simpa [children] using below
      rcases either with rfl | rfl
      · exact folds.2.1
      · exact folds.2.2
    | group opening inner closing =>
      obtain rfl : child = inner := by simpa [children] using below
      exact folds

namespace Expr

theorem hasType_ones (n : Nat) : (ones n).HasType .integer := by
  have row : (⟨.plus, .addition, .integer, .integer, .integer⟩ : BinaryRule) ∈
      BinaryRule.table := by
    decide
  induction n with
  | zero => exact .number 1 _
  | succ n ih => exact .binary row rfl ih (.number 1 _)

theorem HasType.negated {e : Expr} (typed : e.HasType .integer) (k : Nat) :
    (e.negated k).HasType .integer := by
  have row : (⟨.minus, .negation, .integer, .integer⟩ : UnaryRule) ∈ UnaryRule.table := by
    decide
  induction k with
  | zero => exact typed
  | succ k ih => exact .unary row rfl ih

end Expr

theorem Layout.diagnostics_of_hasType {layout : Layout} {e : Expr} {ty : Ty}
    (typed : e.HasType ty) (fits : (layout.node e).rank ≤ maxNesting)
    (folds : (layout.node e).FoldsWithin maxNesting) :
    (Analysis.ofText (layout.text e.lexemes)).diagnostics = [] := by
  obtain ⟨t, resolved, -⟩ := typed.resolve_node (layout.places e.lexemes) 0 .empty
  have types : Resolver.empty.resolve (layout.node e) = (t, .empty) := resolved
  simp only [Analysis.ofText, parse_text fits folds, layout.diagnostics_text e.inRange_lexemes,
    types]
  rfl

theorem Analysis.diagnostics_steep {k n : Nat} (signs : k + 4 ≤ maxNesting)
    (summands : n + 2 ≤ maxNesting) : (ofText (steep k n)).diagnostics = [] := by
  obtain ⟨-, rank, folds⟩ := Expr.height_negated_ones
    (Layout.spaced.places ((Expr.ones (n + 1)).negated (k + 1)).lexemes) k n 0
  have typed := (Expr.hasType_ones (n + 1)).negated (k + 1)
  exact Layout.diagnostics_of_hasType typed (Nat.le_trans rank signs) (folds summands)

namespace Tree

open Reckon.Parser

/-- What is counted while a node is read is the height of the node, for all that is read and from
every state. No infix expression in a tree is higher than the limit of nesting. Trees are at most
two levels short of twice that limit, and a text with nothing wrong gets there. -/
theorem height_counted_and_worst :
    (∀ (room tier : Nat) (s : State), (expression room tier s).Measured) ∧
    (∀ (room : Nat) (s : State), (operand (expression room) s).Measured ∧
      (signed (expression room) s).Measured ∧ (group (expression room) s).Measured ∧
      (literal s).Measured) ∧
    (∀ (text : String) (left : Node) (operator : Token) (right : Node),
      (Node.binary left operator right).PartOf (ofText text).root →
        (Node.binary left operator right).height ≤ maxNesting) ∧
    (∀ text : String, (ofText text).root.height ≤ 2 * maxNesting - 2) ∧
    ∃ text : String, (Analysis.ofText text).diagnostics = [] ∧
      (ofText text).root.height = 2 * maxNesting - 2 := by
  refine ⟨measured_expression, ?_, ?_, ?_, ?_⟩
  · intro room s
    exact ⟨measured_operand room s, measured_signed room s, measured_group room s,
      measured_literal s⟩
  · intro text left operator right inside
    have folds : (ofText text).root.FoldsWithin maxNesting :=
      (reading_expression maxNesting 0 _).foldsWithin
    exact (folds.of_partOf inside).1
  · intro text
    have counted : (expression maxNesting 0 (start (.ofText text))).height =
        (ofText text).root.height := measured_expression _ _ _
    have bound := (reading_expression maxNesting 0 (start (.ofText text))).height_le rfl
    omega
  · have signs : 252 + 4 ≤ maxNesting := by decide
    have summands : 254 + 2 ≤ maxNesting := by decide
    obtain ⟨height, -⟩ := height_root_steep signs summands
    exact ⟨steep 252 254, Analysis.diagnostics_steep signs summands, height⟩

end Tree

end Reckon
