import Reckon.Node.Parser
import Reckon.Typed

/-!
Analysis: a text taken all the way to a typed expression, and its outcome.
-/

set_option autoImplicit false
set_option relaxedAutoImplicit false

namespace Reckon

inductive Outcome
  | value (v : Value)
  | rejected (diagnostics : List Diagnostic)
  | failed (failure : Failure)
  deriving DecidableEq

def Outcome.ofEval : Except Failure Value → Outcome
  | .ok v => .value v
  | .error failure => .failed failure

structure Analysis where
  lexed : Lexed
  parse : Parse
  typed : Typed
  diagnostics : List Diagnostic

namespace Analysis

/-- An expression is resolved whatever is wrong with its text, so that all problems are found at
once. -/
def ofText (text : String) : Analysis :=
  let lexed := Lexed.ofText text
  let parse := Parse.ofLexed lexed
  let resolved := Resolver.empty.resolve parse.root
  { lexed
    parse
    typed := resolved.1
    diagnostics := lexed.diagnostics ++ parse.diagnostics ++ resolved.2.reported }

def tree (a : Analysis) : Tree :=
  .ofParse a.lexed a.parse

/-- A text with anything wrong is rejected, and any other is evaluated. -/
def outcome (a : Analysis) : Outcome :=
  if a.diagnostics = [] then .ofEval a.typed.eval else .rejected a.diagnostics

end Analysis

def evaluate (text : String) : Outcome :=
  (Analysis.ofText text).outcome

end Reckon
