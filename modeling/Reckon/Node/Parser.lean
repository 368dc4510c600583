import Reckon.Node.Basic
import Reckon.Token.Lexer

/-!
Parsing by precedence: `binary p := operand (op binary (tier op))*`, for operators of a tier above
`p`, so that all infix operators associate to the left. Parsing never fails. A token that is
missing is reported and invented without reading on, and an expression that nests too deeply is
reported once, after which the rest of the text is skipped.
-/

set_option autoImplicit false
set_option relaxedAutoImplicit false

namespace Reckon

/-- How many levels of expressions may be open at once, and how high an infix expression may
be. -/
def maxNesting : Nat := 256

/-- Where a text was given up, and how many expressions were open there. -/
structure Abandonment where
  span : Span
  depth : Nat
  deriving DecidableEq

namespace Parser

/-- Where parsing stands: the tokens not read, without the one that ends the text, whether the
text was given up, and what was reported. -/
structure State where
  ahead : List Token
  endOfInput : Token
  abandoned : Option Abandonment
  reported : List Diagnostic
  deriving DecidableEq

namespace State

/-- The next token, which is the one that ends the text when no other is left. -/
def current (s : State) : Token :=
  match s.ahead with
  | [] => s.endOfInput
  | token :: _ => token

/-- Reads one token; the end of the text is never passed. -/
def advance (s : State) : State :=
  { s with ahead := s.ahead.tail }

def report (s : State) (span : Span) (problem : Problem) : State :=
  { s with reported := Diagnostic.report s.reported span problem }

/-- Gives the text up because it nests too deeply at `span`. Only the first time is reported. -/
def abandon (s : State) (span : Span) (depth : Nat) : State :=
  match s.abandoned with
  | some _ => { s with ahead := [] }
  | none =>
    { s.report span .nestedTooDeeply with ahead := [], abandoned := some ⟨span, depth⟩ }

/-- Reads a closing parenthesis, or invents one. A missing one is not reported any more once the
text was given up. -/
def close (s : State) : Token × State :=
  if s.current.kind = .closeParen then (s.current, s.advance)
  else
    (.invented .closeParen s.current.span.start,
      if s.abandoned.isSome then s else s.report s.current.span .unclosedParenthesis)

/-- Skips what is left after an expression, and reports the first token of it. -/
def finish (s : State) : State :=
  match s.ahead with
  | [] => s
  | token :: _ =>
    { s.report token.span (.unexpectedToken token.kind .endOfInput) with ahead := [] }

end State

structure Parsed where
  node : Node
  height : Nat
  state : State

def signed (inner : Nat → State → Parsed) (s : State) : Parsed :=
  let operand := inner s.current.kind.signTier s.advance
  ⟨.unary s.current operand.node, operand.height + 1, operand.state⟩

def group (inner : Nat → State → Parsed) (s : State) : Parsed :=
  let body := inner 0 s.advance
  let closing := body.state.close
  ⟨.group s.current body.node closing.1, body.height + 1, closing.2⟩

/-- A number or a truth value, or an invented number where neither stands. -/
def literal (s : State) : Parsed :=
  if s.current.kind = .number ∨ s.current.kind = .trueWord ∨ s.current.kind = .falseWord then
    ⟨.ofToken s.current, 1, s.advance⟩
  else
    ⟨.ofToken (.invented .number s.current.span.start), 1,
      s.report s.current.span (.unexpectedToken s.current.kind .number)⟩

/-- What stands between infix operators. A sign is taken at every tier of the expression around it,
since none is above that of signs. -/
def operand (inner : Nat → State → Parsed) (s : State) : Parsed :=
  if s.current.kind.signTier ≠ 0 then signed inner s
  else if s.current.kind = .openParen then group inner s
  else literal s

/-- Folds the infix operators above a tier into `left`, at most `rounds` of them. The operator
that would make the tree too high is dropped with all that follows it. -/
def fold (inner : Nat → State → Parsed) (depth tier : Nat) : Nat → Parsed → Parsed
  | 0, left => left
  | rounds + 1, left =>
    let operator := left.state.current
    if operator.kind.infixTier ≤ tier then left
    else
      let right := inner operator.kind.infixTier left.state.advance
      let height := max left.height right.height + 1
      if maxNesting < height then { left with state := right.state.abandon operator.span depth }
      else fold inner depth tier rounds ⟨.binary left.node operator right.node, height, right.state⟩

/-- An expression whose infix operators are above a tier, with room for so many levels. Every
operator takes a token, so that there are at most as many rounds as tokens. -/
def expression : Nat → Nat → State → Parsed
  | 0, _, s =>
    let span := s.current.span
    ⟨.ofToken (.invented .number span.start), 1, s.abandon span maxNesting⟩
  | room + 1, tier, s =>
    fold (expression room) (maxNesting - room) tier s.ahead.length (operand (expression room) s)

def start (lexed : Lexed) : State :=
  ⟨lexed.tokens, lexed.endOfInput, none, []⟩

end Parser

structure Parse where
  root : Node
  diagnostics : List Diagnostic
  abandoned : Option Abandonment
  deriving DecidableEq

namespace Parse

def ofLexed (lexed : Lexed) : Parse :=
  let parsed := Parser.expression maxNesting 0 (Parser.start lexed)
  let state := parsed.state.finish
  ⟨parsed.node, state.reported, state.abandoned⟩

end Parse

/-- The expression of a text, the token that ends it, and what is wrong with it: first with its
characters, then with the order of its tokens. -/
structure Tree where
  root : Node
  endOfInput : Token
  diagnostics : List Diagnostic
  deriving DecidableEq

namespace Tree

def ofParse (lexed : Lexed) (parse : Parse) : Tree :=
  ⟨parse.root, lexed.endOfInput, lexed.diagnostics ++ parse.diagnostics⟩

def ofText (text : String) : Tree :=
  ofParse (.ofText text) (.ofLexed (.ofText text))

end Tree

end Reckon
