import Reckon.Analysis

/-!
The log of a run: what is written about each stage of an analysis, or about each diagnostic.
-/

set_option autoImplicit false
set_option relaxedAutoImplicit false

namespace Reckon

inductive Verbosity
  | silent
  | stages
  | diagnostics
  deriving DecidableEq

/-- A setting names what the log tells. Two filters are known; the levels `off`, `error`, `warn` and
`info` tell nothing. All other filters, such as the level `trace` or one for another module, are not
covered and are taken for silence. -/
def Verbosity.ofSetting : Option String → Verbosity
  | some "debug" => .stages
  | some "minicalc::error=trace" => .diagnostics
  | _ => .silent

inductive Event
  | lexed (tokens diagnostics : Nat)
  | abandoned (place : Abandonment)
  | parsed (root : Node) (diagnostics : Nat)
  | resolved (diagnostics : Nat)
  | evaluated (value : Value)
  | reported (diagnostic : Diagnostic)

namespace Event

def line : Event → String
  | .lexed tokens diagnostics =>
    "DEBUG lexed input, tokens=" ++ toString tokens ++ ", diagnostics=" ++ toString diagnostics
  | .abandoned place =>
    "DEBUG nesting limit reached, span=" ++ place.span.render ++ ", depth=" ++
      toString place.depth
  | .parsed root diagnostics =>
    "DEBUG parsed expression, root=" ++ root.kindName ++ ", diagnostics=" ++ toString diagnostics
  | .resolved diagnostics => "DEBUG bound expression, diagnostics=" ++ toString diagnostics
  | .evaluated value => "DEBUG evaluated expression, value=" ++ value.render
  | .reported diagnostic =>
    "TRACE diagnostic reported, span=" ++ diagnostic.span.render ++ ", " ++ diagnostic.message

end Event

namespace Analysis

def stages (a : Analysis) : List Event :=
  [.lexed a.lexed.all.length a.lexed.diagnostics.length] ++
    a.parse.abandoned.toList.map Event.abandoned ++
    [.parsed a.parse.root a.tree.diagnostics.length, .resolved a.diagnostics.length]

def events (a : Analysis) : Verbosity → List Event
  | .silent => []
  | .stages =>
    match a.outcome with
    | .value v => a.stages ++ [.evaluated v]
    | _ => a.stages
  | .diagnostics => a.diagnostics.map Event.reported

end Analysis

end Reckon
