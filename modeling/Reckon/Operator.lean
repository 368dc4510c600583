import Reckon.Token.Basic

/-!
Operations, and the rules that say which operation a symbol stands for at which types.
-/

set_option autoImplicit false
set_option relaxedAutoImplicit false

namespace Reckon

inductive UnaryOperation
  | identity | negation | logicalNegation
  deriving DecidableEq

namespace UnaryOperation

def all : List UnaryOperation :=
  [.identity, .negation, .logicalNegation]

def name : UnaryOperation → String
  | .identity => "Identity"
  | .negation => "Negation"
  | .logicalNegation => "LogicalNegation"

def ofName? (s : String) : Option UnaryOperation :=
  all.find? (·.name == s)

end UnaryOperation

inductive BinaryOperation
  | addition | subtraction | multiplication | division
  | logicalAnd | logicalOr
  | equals | notEquals
  deriving DecidableEq

namespace BinaryOperation

def all : List BinaryOperation :=
  [.addition, .subtraction, .multiplication, .division, .logicalAnd, .logicalOr, .equals,
    .notEquals]

def name : BinaryOperation → String
  | .addition => "Addition"
  | .subtraction => "Subtraction"
  | .multiplication => "Multiplication"
  | .division => "Division"
  | .logicalAnd => "LogicalAnd"
  | .logicalOr => "LogicalOr"
  | .equals => "Equals"
  | .notEquals => "NotEquals"

def ofName? (s : String) : Option BinaryOperation :=
  all.find? (·.name == s)

end BinaryOperation

/-- A symbol in front of an operand of one type stands for an operation with a result of
another. -/
structure UnaryRule where
  symbol : Token.Kind
  operation : UnaryOperation
  operand : Ty
  result : Ty
  deriving DecidableEq

namespace UnaryRule

def table : List UnaryRule :=
  [⟨.plus, .identity, .integer, .integer⟩,
    ⟨.minus, .negation, .integer, .integer⟩,
    ⟨.bang, .logicalNegation, .boolean, .boolean⟩]

def find? (symbol : Token.Kind) (operand : Ty) : Option UnaryRule :=
  table.find? fun rule => rule.symbol = symbol ∧ rule.operand = operand

end UnaryRule

structure BinaryRule where
  symbol : Token.Kind
  operation : BinaryOperation
  left : Ty
  right : Ty
  result : Ty
  deriving DecidableEq

namespace BinaryRule

/-- The rules of the language. The symbols that compare by order have none. -/
def table : List BinaryRule :=
  [⟨.plus, .addition, .integer, .integer, .integer⟩,
    ⟨.minus, .subtraction, .integer, .integer, .integer⟩,
    ⟨.star, .multiplication, .integer, .integer, .integer⟩,
    ⟨.slash, .division, .integer, .integer, .integer⟩,
    ⟨.andAnd, .logicalAnd, .boolean, .boolean, .boolean⟩,
    ⟨.orOr, .logicalOr, .boolean, .boolean, .boolean⟩,
    ⟨.equal, .equals, .integer, .integer, .boolean⟩,
    ⟨.notEqual, .notEquals, .integer, .integer, .boolean⟩,
    ⟨.equal, .equals, .boolean, .boolean, .boolean⟩,
    ⟨.notEqual, .notEquals, .boolean, .boolean, .boolean⟩]

def find? (symbol : Token.Kind) (left right : Ty) : Option BinaryRule :=
  table.find? fun rule => rule.symbol = symbol ∧ rule.left = left ∧ rule.right = right

end BinaryRule

end Reckon
