import Reckon.Proofs.Token.Layout
import Reckon.Proofs.Typed.Exact

/-!
Expressions apart from any text: what they are made of, which of them are well typed, what they
evaluate to over unbounded integers and where that goes wrong, and how they are written with no
more parentheses than the tiers of their operators ask for.
-/

set_option autoImplicit false
set_option relaxedAutoImplicit false

namespace Reckon

inductive UnarySymbol
  | plus | minus | bang

inductive BinarySymbol
  | orOr | andAnd
  | equal | notEqual | less | lessEqual | greater | greaterEqual
  | plus | minus | star | slash

namespace UnarySymbol

def kind : UnarySymbol → Token.Kind
  | .plus => .plus
  | .minus => .minus
  | .bang => .bang

def operation : UnarySymbol → UnaryOperation
  | .plus => .identity
  | .minus => .negation
  | .bang => .logicalNegation

def lexeme (symbol : UnarySymbol) : Lexeme :=
  .ofKind symbol.kind (by cases symbol <;> decide)

end UnarySymbol

namespace BinarySymbol

def kind : BinarySymbol → Token.Kind
  | .orOr => .orOr
  | .andAnd => .andAnd
  | .equal => .equal
  | .notEqual => .notEqual
  | .less => .less
  | .lessEqual => .lessEqual
  | .greater => .greater
  | .greaterEqual => .greaterEqual
  | .plus => .plus
  | .minus => .minus
  | .star => .star
  | .slash => .slash

/-- What a symbol stands for. Those that compare by order stand for nothing. -/
def operation? : BinarySymbol → Option BinaryOperation
  | .orOr => some .logicalOr
  | .andAnd => some .logicalAnd
  | .equal => some .equals
  | .notEqual => some .notEquals
  | .less | .lessEqual | .greater | .greaterEqual => none
  | .plus => some .addition
  | .minus => some .subtraction
  | .star => some .multiplication
  | .slash => some .division

def exact (symbol : BinarySymbol) (left right : Exact) : Option Exact :=
  symbol.operation?.bind fun operation => operation.exact left right

def lexeme (symbol : BinarySymbol) : Lexeme :=
  .ofKind symbol.kind (by cases symbol <;> decide)

end BinarySymbol

/-- An expression. Its numbers are the integers of the language that need no sign. -/
inductive Expr
  | number (n : Nat) (small : (n : Int) ≤ Int64.maxValue.toInt)
  | truth (b : Bool)
  | unary (symbol : UnarySymbol) (operand : Expr)
  | binary (left : Expr) (symbol : BinarySymbol) (right : Expr)

namespace Expr

inductive HasType : Expr → Ty → Prop
  | number (n : Nat) (small : (n : Int) ≤ Int64.maxValue.toInt) : HasType (.number n small) .integer
  | truth (b : Bool) : HasType (.truth b) .boolean
  | unary {symbol : UnarySymbol} {operand : Expr} {rule : UnaryRule}
      (row : rule ∈ UnaryRule.table) (stands : rule.symbol = symbol.kind)
      (inner : HasType operand rule.operand) : HasType (.unary symbol operand) rule.result
  | binary {left : Expr} {symbol : BinarySymbol} {right : Expr} {rule : BinaryRule}
      (row : rule ∈ BinaryRule.table) (stands : rule.symbol = symbol.kind)
      (first : HasType left rule.left) (second : HasType right rule.right) :
      HasType (.binary left symbol right) rule.result

/-- The value over unbounded integers, if nothing is divided by zero. -/
def exact : Expr → Option Exact
  | .number n _ => some (.integer n)
  | .truth b => some (.boolean b)
  | .unary symbol operand => do symbol.operation.exact (← operand.exact)
  | .binary left symbol right => do symbol.exact (← left.exact) (← right.exact)

def tier : Expr → Nat
  | .binary _ symbol _ => symbol.kind.infixTier
  | _ => 7

/-- An expression that binds looser than a tier has to be enclosed in parentheses there. -/
def loose (e : Expr) (tier : Nat) : Bool :=
  e.tier < tier

end Expr

def inside (enclosed : Bool) (i : Nat) : Nat :=
  if enclosed then i + 1 else i

def Lexeme.enclose (enclosed : Bool) (ls : List Lexeme) : List Lexeme :=
  if enclosed then ofKind .openParen (by decide) :: (ls ++ [ofKind .closeParen (by decide)])
  else ls

/-- A node in parentheses, if need be. Its lexemes are numbered from `i` on, and `size` of them
are inside the parentheses. -/
def Node.enclose (places : Nat → Span) (enclosed : Bool) (i size : Nat) (inner : Node) : Node :=
  if enclosed then
    .group ((Lexeme.ofKind .openParen (by decide)).token (places i)) inner
      ((Lexeme.ofKind .closeParen (by decide)).token (places (i + 1 + size)))
  else inner

namespace Expr

/-- The lexemes of an expression. An operand in front of its operator is enclosed if it binds
looser, and one behind its operator unless it binds tighter. -/
def lexemes : Expr → List Lexeme
  | .number n _ => [.number n]
  | .truth b => [.truth b]
  | .unary symbol operand =>
    symbol.lexeme :: Lexeme.enclose (operand.loose (symbol.kind.signTier + 1)) operand.lexemes
  | .binary left symbol right =>
    Lexeme.enclose (left.loose symbol.kind.infixTier) left.lexemes ++
      symbol.lexeme :: Lexeme.enclose (right.loose (symbol.kind.infixTier + 1)) right.lexemes

def middle (i : Nat) (left : Expr) (symbol : BinarySymbol) : Nat :=
  i + (Lexeme.enclose (left.loose symbol.kind.infixTier) left.lexemes).length

/-- The tree of an expression whose lexemes are numbered from `i` on. -/
def node (places : Nat → Span) : Expr → Nat → Node
  | .number n _, i => .ofToken ((Lexeme.number n).token (places i))
  | .truth b, i => .ofToken ((Lexeme.truth b).token (places i))
  | .unary symbol operand, i =>
    let enclosed := operand.loose (symbol.kind.signTier + 1)
    .unary (symbol.lexeme.token (places i))
      (.enclose places enclosed (i + 1) operand.lexemes.length
        (operand.node places (inside enclosed (i + 1))))
  | .binary left symbol right, i =>
    let leftEnclosed := left.loose symbol.kind.infixTier
    let rightEnclosed := right.loose (symbol.kind.infixTier + 1)
    let m := middle i left symbol
    .binary
      (.enclose places leftEnclosed i left.lexemes.length
        (left.node places (inside leftEnclosed i)))
      (symbol.lexeme.token (places m))
      (.enclose places rightEnclosed (m + 1) right.lexemes.length
        (right.node places (inside rightEnclosed (m + 1))))

/-- All that goes wrong over unbounded integers, operands before their operator and from left to
right: divisions by zero, and results out of range. An operator with an operand that has no value
goes wrong in no other way. -/
def faults (places : Nat → Span) : Expr → Nat → List Failure
  | .number _ _, _ => []
  | .truth _, _ => []
  | .unary symbol operand, i =>
    operand.faults places (inside (operand.loose (symbol.kind.signTier + 1)) (i + 1)) ++
      (match operand.exact with
      | some value => Exact.faults (places i) (symbol.operation.exact value)
      | none => [])
  | .binary left symbol right, i =>
    let m := middle i left symbol
    left.faults places (inside (left.loose symbol.kind.infixTier) i) ++
      (right.faults places (inside (right.loose (symbol.kind.infixTier + 1)) (m + 1)) ++
        (match left.exact, right.exact with
        | some first, some second => Exact.faults (places m) (symbol.exact first second)
        | _, _ => []))

end Expr

end Reckon
