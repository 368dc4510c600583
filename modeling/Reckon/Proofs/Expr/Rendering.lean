import Reckon.Proofs.Expr.Basic
import Reckon.Proofs.Node.Acceptance

/-!
The text of an expression is parsed to the tree of the expression: parentheses stand where the
grammar needs them, so that the tree is canonical and its tokens are those of the text.
-/

set_option autoImplicit false
set_option relaxedAutoImplicit false

namespace Reckon

namespace Node

variable (places : Nat → Span) (enclosed : Bool) (i : Nat)

private theorem tokens_enclose {inner : Node} {ls : List Lexeme}
    (tokens : inner.tokens = Lexeme.place places (inside enclosed i) ls) :
    (Node.enclose places enclosed i ls.length inner).tokens =
      Lexeme.place places i (Lexeme.enclose enclosed ls) := by
  cases enclosed with
  | false => exact tokens
  | true =>
    have inner_tokens : inner.tokens = Lexeme.place places (i + 1) ls := tokens
    simp only [Node.enclose, Lexeme.enclose, ↓reduceIte, Node.tokens, inner_tokens, Lexeme.place,
      Lexeme.place_append]

private theorem canonical_enclose {inner : Node} (size : Nat) (canonical : inner.Canonical) :
    (Node.enclose places enclosed i size inner).Canonical := by
  cases enclosed with
  | false => exact canonical
  | true => exact .group rfl rfl canonical

private theorem le_tier_enclose {e : Expr} {inner : Node} {tier : Nat} (size : Nat)
    (bounded : tier ≤ 7) (same : inner.tier = e.tier) :
    tier ≤ (Node.enclose places (e.loose tier) i size inner).tier := by
  cases loose : e.loose tier with
  | true => exact bounded
  | false =>
    have tight : ¬ e.tier < tier := of_decide_eq_false loose
    change tier ≤ inner.tier
    omega

end Node

namespace UnarySymbol

theorem isSign_kind (symbol : UnarySymbol) : symbol.kind.IsSign := by
  cases symbol with
  | plus => exact .inl rfl
  | minus => exact .inr (.inl rfl)
  | bang => exact .inr (.inr rfl)

end UnarySymbol

theorem BinarySymbol.infixTier_kind_ne_zero (symbol : BinarySymbol) :
    symbol.kind.infixTier ≠ 0 := by
  cases symbol <;> decide

namespace Expr

variable (places : Nat → Span)

theorem tier_node (e : Expr) (i : Nat) : (e.node places i).tier = e.tier := by
  cases e <;> rfl

theorem tokens_node (e : Expr) (i : Nat) :
    (e.node places i).tokens = Lexeme.place places i e.lexemes := by
  induction e generalizing i with
  | number n small => rfl
  | truth b => rfl
  | unary symbol operand ih =>
    have inner := Node.tokens_enclose places (operand.loose (symbol.kind.signTier + 1))
      (i + 1) (ih _)
    exact congrArg (symbol.lexeme.token (places i) :: ·) inner
  | binary left symbol right ihl ihr =>
    have first := Node.tokens_enclose places (left.loose symbol.kind.infixTier) i (ihl _)
    have second := Node.tokens_enclose places (right.loose (symbol.kind.infixTier + 1))
      (middle i left symbol + 1) (ihr _)
    simp only [node, lexemes, Node.tokens, first, second, Lexeme.place_append, Lexeme.place]
    rfl

theorem canonical_node (e : Expr) (i : Nat) : (e.node places i).Canonical := by
  induction e generalizing i with
  | number n small => exact .literal (.inl rfl)
  | truth b =>
    cases b with
    | true => exact .literal (.inr (.inl rfl))
    | false => exact .literal (.inr (.inr rfl))
  | unary symbol operand ih =>
    have tight := symbol.kind.signTier_lt_seven
    refine .unary symbol.isSign_kind ?_ (Node.canonical_enclose _ _ _ _ (ih _))
    exact Node.le_tier_enclose places _ _ tight (operand.tier_node places _)
  | binary left symbol right ihl ihr =>
    have tight := symbol.kind.infixTier_lt_seven
    refine .binary symbol.infixTier_kind_ne_zero ?_ ?_ (Node.canonical_enclose _ _ _ _ (ihl _))
      (Node.canonical_enclose _ _ _ _ (ihr _))
    · exact Node.le_tier_enclose places i _ (Nat.le_of_lt tight) (left.tier_node places _)
    · exact Node.le_tier_enclose places _ _ tight (right.tier_node places _)

private theorem inRange_enclose (enclosed : Bool) {ls : List Lexeme}
    (range : ∀ l ∈ ls, l.InRange) : ∀ l ∈ Lexeme.enclose enclosed ls, l.InRange := by
  cases enclosed with
  | false => exact range
  | true =>
    intro l member
    simp only [Lexeme.enclose, ↓reduceIte, List.mem_cons, List.mem_append, List.not_mem_nil,
      or_false] at member
    rcases member with rfl | member | rfl
    · exact Lexeme.inRange_of_kind_ne (by decide)
    · exact range l member
    · exact Lexeme.inRange_of_kind_ne (by decide)

theorem inRange_lexemes (e : Expr) : ∀ l ∈ e.lexemes, l.InRange := by
  induction e with
  | number n small =>
    intro l member
    obtain rfl := List.mem_singleton.mp member
    obtain ⟨m, decimal, -⟩ := Lexeme.decimal?_text_number small
    rintro ⟨-, none⟩
    rw [decimal] at none
    cases none
  | truth b =>
    intro l member
    obtain rfl := List.mem_singleton.mp member
    exact Lexeme.inRange_of_kind_ne (by cases b <;> decide)
  | unary symbol operand ih =>
    intro l member
    rcases List.mem_cons.mp member with rfl | member
    · exact Lexeme.inRange_of_kind_ne (by cases symbol <;> decide)
    · exact inRange_enclose _ ih l member
  | binary left symbol right ihl ihr =>
    intro l member
    rcases List.mem_append.mp member with member | member
    · exact inRange_enclose _ ihl l member
    rcases List.mem_cons.mp member with rfl | member
    · exact Lexeme.inRange_of_kind_ne (by cases symbol <;> decide)
    · exact inRange_enclose _ ihr l member

end Expr

namespace Layout

variable (layout : Layout)

def node (e : Expr) : Node :=
  e.node (layout.places e.lexemes) 0

variable {layout} {e : Expr}

theorem reads_node (fits : (layout.node e).rank ≤ maxNesting)
    (folds : (layout.node e).FoldsWithin maxNesting) :
    (layout.node e).Reads (.ofText (layout.text e.lexemes)) where
  canonical := e.canonical_node _ 0
  tokens := by
    rw [node, Expr.tokens_node, Lexed.all, tokens_text]
  rank := fits
  folds := folds

theorem parse_text (fits : (layout.node e).rank ≤ maxNesting)
    (folds : (layout.node e).FoldsWithin maxNesting) :
    Parse.ofLexed (.ofText (layout.text e.lexemes)) = ⟨layout.node e, [], none⟩ :=
  Parse.ofLexed_of_reads rfl (reads_node fits folds)

end Layout

end Reckon
