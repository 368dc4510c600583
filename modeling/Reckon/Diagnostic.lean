import Reckon.Token.Basic

/-!
Diagnostics: what is wrong with a text, and where. A problem is a cause; its wording is given
once, by `Problem.message`.
-/

set_option autoImplicit false
set_option relaxedAutoImplicit false

namespace Reckon

inductive Severity
  | warning | error
  deriving DecidableEq

namespace Severity

def all : List Severity :=
  [.warning, .error]

def name : Severity → String
  | .warning => "warning"
  | .error => "error"

def ofName? (s : String) : Option Severity :=
  all.find? (·.name == s)

/-- A warning is below an error, and nothing else is below anything. -/
def below : Severity → Severity → Bool
  | .warning, .error => true
  | _, _ => false

end Severity

inductive Problem
  | badCharacter (text : String)
  | numberOutOfRange (text : String)
  | unexpectedToken (actual expected : Token.Kind)
  | unclosedParenthesis
  | nestedTooDeeply
  | undefinedUnary (operator : String) (operand : Ty)
  | undefinedBinary (operator : String) (left right : Ty)
  deriving DecidableEq

def Problem.message : Problem → String
  | .badCharacter text => "bad character input: '" ++ text ++ "'"
  | .numberOutOfRange text => "the number " ++ text ++ " is not a valid " ++ Ty.integer.name
  | .unexpectedToken actual expected =>
    "unexpected token <" ++ actual.name ++ ">, expected <" ++ expected.name ++ ">"
  | .unclosedParenthesis => "expected closing parenthesis"
  | .nestedTooDeeply => "expression nested too deeply"
  | .undefinedUnary operator operand =>
    "unary operator '" ++ operator ++ "' is not defined for type " ++ operand.name
  | .undefinedBinary operator left right =>
    "binary operator '" ++ operator ++ "' is not defined for types " ++ left.name ++ " and " ++
      right.name

structure Diagnostic where
  severity : Severity
  span : Span
  problem : Problem
  deriving DecidableEq

namespace Diagnostic

/-- Every problem that is found in a text is an error. -/
def error (span : Span) (problem : Problem) : Diagnostic :=
  ⟨.error, span, problem⟩

def report (reported : List Diagnostic) (span : Span) (problem : Problem) : List Diagnostic :=
  reported ++ [error span problem]

def renderMessage (severity : Severity) (span : Span) (message : String) : String :=
  severity.name ++ " at " ++ span.render ++ ": " ++ message

def message (d : Diagnostic) : String :=
  d.problem.message

def render (d : Diagnostic) : String :=
  renderMessage d.severity d.span d.message

end Diagnostic

end Reckon
