import Reckon.Value

/-!
Tokens: their kinds, the tiers at which operator kinds bind, and tokens at a place in a text. Places
are half-open ranges of byte offsets.
-/

set_option autoImplicit false
set_option relaxedAutoImplicit false

namespace Reckon

structure Span where
  start : Nat
  length : Nat
  deriving DecidableEq

namespace Span

def stop (s : Span) : Nat :=
  s.start + s.length

/-- The range from `start` to `stop`, empty at `start` when `stop` comes first. -/
def ofBounds (start stop : Nat) : Span :=
  ⟨start, stop - start⟩

def emptyAt (start : Nat) : Span :=
  ⟨start, 0⟩

def render (s : Span) : String :=
  toString s.start ++ ".." ++ toString s.stop

theorem stop_ofBounds {start stop : Nat} (h : start ≤ stop) :
    (ofBounds start stop).stop = stop := by
  simp only [Span.stop, ofBounds]
  omega

end Span

inductive Token.Kind
  | number | trueWord | falseWord | identifier
  | plus | minus | star | slash | bang
  | andAnd | orOr | equal | notEqual
  | less | lessEqual | greater | greaterEqual
  | openParen | closeParen
  | endOfInput
  deriving DecidableEq

namespace Token.Kind

def all : List Kind :=
  [.number, .trueWord, .falseWord, .identifier, .plus, .minus, .star, .slash, .bang, .andAnd, .orOr,
    .equal, .notEqual, .less, .lessEqual, .greater, .greaterEqual, .openParen, .closeParen,
    .endOfInput]

def name : Kind → String
  | .number => "Number"
  | .trueWord => "TrueKeyword"
  | .falseWord => "FalseKeyword"
  | .identifier => "Identifier"
  | .plus => "Plus"
  | .minus => "Minus"
  | .star => "Star"
  | .slash => "Slash"
  | .bang => "Bang"
  | .andAnd => "AmpersandAmpersand"
  | .orOr => "PipePipe"
  | .equal => "EqualsEquals"
  | .notEqual => "BangEquals"
  | .less => "Less"
  | .lessEqual => "LessEquals"
  | .greater => "Greater"
  | .greaterEqual => "GreaterEquals"
  | .openParen => "OpenParenthesis"
  | .closeParen => "CloseParenthesis"
  | .endOfInput => "EndOfFile"

def ofName? (s : String) : Option Kind :=
  all.find? (·.name == s)

theorem ofName?_name (k : Kind) : ofName? k.name = some k := by
  cases k <;> decide

/-- How tightly an infix operator binds, loosest first; `0` for every other kind. -/
def infixTier : Kind → Nat
  | .orOr => 1
  | .andAnd => 2
  | .equal | .notEqual | .less | .lessEqual | .greater | .greaterEqual => 3
  | .plus | .minus => 4
  | .star | .slash => 5
  | _ => 0

/-- How tightly a sign or negation in front of an operand binds, above every infix operator;
`0` for every other kind. -/
def signTier : Kind → Nat
  | .plus | .minus | .bang => 6
  | _ => 0

end Token.Kind

structure Token where
  kind : Token.Kind
  span : Span
  text : String
  value : Option Value
  deriving DecidableEq

namespace Token

/-- A stand-in for a token that the text does not hold: no text and no value, at an offset. -/
def invented (kind : Kind) (start : Nat) : Token :=
  ⟨kind, .emptyAt start, "", none⟩

end Token

end Reckon
