import Reckon.Token.Basic

/-!
Nodes: expressions as they are written, every token kept. A node is drawn row by row, on a walk
through it and everything below it.
-/

set_option autoImplicit false
set_option relaxedAutoImplicit false

namespace Reckon

inductive Node
  | literal (token : Token) (value : Option Value)
  | unary (operator : Token) (operand : Node)
  | binary (left : Node) (operator : Token) (right : Node)
  | group (opening : Token) (inner : Node) (closing : Token)
  deriving DecidableEq

namespace Node

def ofToken (token : Token) : Node :=
  .literal token token.value

def kindName : Node → String
  | .literal .. => "LiteralExpression"
  | .unary .. => "UnaryExpression"
  | .binary .. => "BinaryExpression"
  | .group .. => "ParenthesizedExpression"

def span : Node → Span
  | .literal token _ => token.span
  | .unary operator operand => .ofBounds operator.span.start operand.span.stop
  | .binary left _ right => .ofBounds left.span.start right.span.stop
  | .group opening _ closing => .ofBounds opening.span.start closing.span.stop

def tokens : Node → List Token
  | .literal token _ => [token]
  | .unary operator operand => operator :: operand.tokens
  | .binary left operator right => left.tokens ++ operator :: right.tokens
  | .group opening inner closing => opening :: (inner.tokens ++ [closing])

/-- How many levels a node has; parentheses count as one. -/
def height : Node → Nat
  | .literal _ _ => 1
  | .unary _ operand => operand.height + 1
  | .binary left _ right => max left.height right.height + 1
  | .group _ inner _ => inner.height + 1

end Node

/-- A member of a tree: a node, or a token directly below one. -/
inductive Element
  | node (n : Node)
  | token (t : Token)
  deriving DecidableEq

namespace Element

def kindName : Element → String
  | .node n => n.kindName
  | .token t => t.kind.name

def value : Element → Option Value
  | .node _ => none
  | .token t => t.value

def span : Element → Span
  | .node n => n.span
  | .token t => t.span

def label (e : Element) : String :=
  match e.value with
  | some v => e.kindName ++ ":   " ++ v.render
  | none => e.kindName

end Element

def Node.children : Node → List Element
  | .literal token _ => [.token token]
  | .unary operator operand => [.token operator, .node operand]
  | .binary left operator right => [.node left, .token operator, .node right]
  | .group opening inner closing => [.token opening, .node inner, .token closing]

/-- An element on a walk: whether each element above it, from the root down, is the last below
its own parent, and whether it is so itself. The root counts as last. -/
structure Row where
  above : List Bool
  last : Bool
  element : Element
  deriving DecidableEq

namespace Row

def depth (r : Row) : Nat :=
  r.above.length

/-- The guide that a line draws below an element: none once the last one is drawn. -/
def guide (last : Bool) : String :=
  if last then "    " else "│   "

def corner (last : Bool) : String :=
  if last then "└──" else "├──"

def line (r : Row) : String :=
  String.join (r.above.map guide) ++ corner r.last ++ r.element.label

end Row

namespace Node

/-- Walks through a node and what is below it, parents first and then from left to right. -/
def walkFrom (above : List Bool) (last : Bool) : Node → List Row
  | .literal token value =>
    [⟨above, last, .node (.literal token value)⟩, ⟨above ++ [last], true, .token token⟩]
  | .unary operator operand =>
    ⟨above, last, .node (.unary operator operand)⟩ ::
      ⟨above ++ [last], false, .token operator⟩ ::
        walkFrom (above ++ [last]) true operand
  | .binary left operator right =>
    ⟨above, last, .node (.binary left operator right)⟩ ::
      (walkFrom (above ++ [last]) false left ++
        ⟨above ++ [last], false, .token operator⟩ ::
          walkFrom (above ++ [last]) true right)
  | .group opening inner closing =>
    ⟨above, last, .node (.group opening inner closing)⟩ ::
      ⟨above ++ [last], false, .token opening⟩ ::
        (walkFrom (above ++ [last]) false inner ++ [⟨above ++ [last], true, .token closing⟩])

def walk (n : Node) : List Row :=
  n.walkFrom [] true

def draw (n : Node) : List String :=
  n.walk.map Row.line

end Node

end Reckon
