import Reckon.Node.Parser

/-!
The grammar of expressions, told of trees alone: which trees are written without a superfluous or
a missing pair of parentheses, and how much room a tree takes to be read. A node that is no infix
expression binds tighter than every operator, so that one comparison of tiers says both that an
operand may be an infix expression and of which tier it has to be then.
-/

set_option autoImplicit false
set_option relaxedAutoImplicit false

namespace Reckon

def Token.Kind.IsLiteral (kind : Token.Kind) : Prop :=
  kind = .number ∨ kind = .trueWord ∨ kind = .falseWord

def Token.Kind.IsSign (kind : Token.Kind) : Prop :=
  kind = .plus ∨ kind = .minus ∨ kind = .bang

namespace Node

/-- How tightly a node binds: as its outermost infix operator does, and tighter than every
operator when it has none. -/
def tier : Node → Nat
  | .binary _ operator _ => operator.kind.infixTier
  | _ => 7

/-- The trees of the grammar. A sign has no infix expression behind it; an infix operator has
none of a lower tier on its left, and none of a lower or equal tier on its right. -/
inductive Canonical : Node → Prop
  | literal {token : Token} (kind : token.kind.IsLiteral) :
      Canonical (.literal token token.value)
  | unary {operator : Token} {operand : Node} (sign : operator.kind.IsSign)
      (tight : operator.kind.signTier < operand.tier) (inner : Canonical operand) :
      Canonical (.unary operator operand)
  | binary {left : Node} {operator : Token} {right : Node}
      (symbol : operator.kind.infixTier ≠ 0)
      (leftTier : operator.kind.infixTier ≤ left.tier)
      (rightTier : operator.kind.infixTier < right.tier)
      (first : Canonical left) (second : Canonical right) :
      Canonical (.binary left operator right)
  | group {opening : Token} {body : Node} {closing : Token}
      (opens : opening.kind = .openParen) (closes : closing.kind = .closeParen)
      (inner : Canonical body) : Canonical (.group opening body closing)

/-- How many expressions are open at once while a node is read. The left operand of an infix
operator is read where the operator is, and the right one inside. -/
def rank : Node → Nat
  | .literal _ _ => 1
  | .unary _ operand => operand.rank + 1
  | .binary left _ right => max left.rank (right.rank + 1)
  | .group _ inner _ => inner.rank + 1

/-- No infix expression in a node is higher than `limit`. -/
def FoldsWithin (limit : Nat) : Node → Prop
  | .literal _ _ => True
  | .unary _ operand => operand.FoldsWithin limit
  | .binary left operator right =>
    (Node.binary left operator right).height ≤ limit ∧
      left.FoldsWithin limit ∧ right.FoldsWithin limit
  | .group _ inner _ => inner.FoldsWithin limit

structure Reads (lexed : Lexed) (node : Node) : Prop where
  canonical : node.Canonical
  tokens : node.tokens ++ [lexed.endOfInput] = lexed.all
  rank : node.rank ≤ maxNesting
  folds : node.FoldsWithin maxNesting

theorem Canonical.tier_pos {node : Node} (canonical : node.Canonical) : 0 < node.tier := by
  cases canonical with
  | binary symbol => exact Nat.pos_of_ne_zero symbol
  | _ => exact Nat.succ_pos 6

theorem rank_pos (node : Node) : 0 < node.rank := by
  induction node with
  | literal _ _ => exact Nat.zero_lt_one
  | unary _ _ _ => exact Nat.succ_pos _
  | binary left _ right ihl _ => exact Nat.lt_of_lt_of_le ihl (Nat.le_max_left _ _)
  | group _ _ _ _ => exact Nat.succ_pos _

theorem foldsWithin_of_height_le {limit : Nat} {node : Node} (low : node.height ≤ limit) :
    node.FoldsWithin limit := by
  induction node with
  | literal _ _ => exact trivial
  | unary _ _ ih => exact ih (Nat.le_of_succ_le low)
  | binary left _ right ihl ihr =>
    have bound : max left.height right.height + 1 ≤ limit := low
    exact ⟨low, ihl (by omega), ihr (by omega)⟩
  | group _ _ _ ih => exact ih (Nat.le_of_succ_le low)

end Node

namespace Token.Kind

theorem infixTier_lt_six (kind : Token.Kind) : kind.infixTier < 6 := by
  cases kind <;> decide

theorem infixTier_lt_seven (kind : Token.Kind) : kind.infixTier < 7 :=
  Nat.lt_succ_of_lt kind.infixTier_lt_six

theorem signTier_lt_seven (kind : Token.Kind) : kind.signTier < 7 := by
  cases kind <;> decide

theorem ne_endOfInput_of_lt_infixTier {kind : Token.Kind} {tier : Nat}
    (above : tier < kind.infixTier) : kind ≠ .endOfInput := by
  intro ends
  rw [ends] at above
  exact Nat.not_lt_zero tier above

theorem ne_endOfInput_of_signTier {kind : Token.Kind} (sign : kind.signTier ≠ 0) :
    kind ≠ .endOfInput := by
  intro ends
  rw [ends] at sign
  exact sign rfl

theorem isSign_iff (kind : Token.Kind) : kind.IsSign ↔ kind.signTier ≠ 0 := by
  cases kind <;> simp [IsSign, signTier]

end Token.Kind

end Reckon
