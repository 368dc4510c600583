import Mathlib.Computability.StateTransition
import Reckon.Proofs.Node.Acceptance

/-!
Parsing as a machine. Its memory holds the tokens of the text with a position among them, and a
count of the expressions that are open; each of these waits in a frame of the stack for the one that
is read now. A step does no more than one of them can do without another. It is not taken where a
token is asked for and there is none, or where the count would fall below zero.

`Reading.reaches` says that the machine reads what parsing reads: from where an expression is
entered, it comes to the answer, with the stack and the count as they were.
-/

set_option autoImplicit false
set_option relaxedAutoImplicit false

namespace Reckon

instance : DecidablePred Token.Kind.IsLiteral :=
  fun _ => inferInstanceAs (Decidable (_ ∨ _))

/-- No tier of an expression is above that of signs. -/
theorem Token.Kind.le_signTier {kind : Token.Kind} {tier : Nat} (sign : kind.signTier ≠ 0)
    (bounded : tier < 7) : tier ≤ kind.signTier := by
  have tight : kind.signTier = 6 := ((isSign_iff kind).mpr sign).signTier_eq
  omega

structure Lexed.EndsOnce (lexed : Lexed) : Prop where
  ended : lexed.endOfInput.kind = .endOfInput
  inside : ∀ token ∈ lexed.tokens, token.kind ≠ .endOfInput

namespace Parser

/-- All tokens of a text, the one that ends it included, the position of the next one, how many
expressions are open, whether the text was given up, and what was reported. -/
structure Memory where
  tokens : List Token
  position : Nat
  depth : Nat
  abandoned : Option Abandonment
  reported : List Diagnostic

namespace Memory

def last (m : Memory) : Nat :=
  m.tokens.length - 1

/-- The token at the position, or the last one where the position is beyond it. -/
def current? (m : Memory) : Option Token :=
  m.tokens[min m.position m.last]?

/-- Moves past a token, unless it ends the text. -/
def pass (m : Memory) (token : Token) : Memory :=
  if token.kind = .endOfInput then m else { m with position := m.position + 1 }

def skip (m : Memory) : Memory :=
  { m with position := m.last }

def report (m : Memory) (span : Span) (problem : Problem) : Memory :=
  { m with reported := Diagnostic.report m.reported span problem }

def abandon (m : Memory) (span : Span) : Memory :=
  match m.abandoned with
  | some _ => m.skip
  | none => { (m.report span .nestedTooDeeply).skip with abandoned := some ⟨span, m.depth⟩ }

def close (m : Memory) (token : Token) : Token × Memory :=
  if token.kind = .closeParen then (token, m.pass token)
  else
    (.invented .closeParen token.span.start,
      if m.abandoned.isSome then m else m.report token.span .unclosedParenthesis)

def finish (m : Memory) (token : Token) : Memory :=
  if token.kind = .endOfInput then m
  else (m.report token.span (.unexpectedToken token.kind .endOfInput)).skip

/-- The memory for a state of parsing, when so many expressions are open. -/
def ofState (lexed : Lexed) (depth : Nat) (s : State) : Memory :=
  ⟨lexed.all, lexed.tokens.length - s.ahead.length, depth, s.abandoned, s.reported⟩

def state (lexed : Lexed) (m : Memory) : State :=
  ⟨lexed.tokens.drop m.position, lexed.endOfInput, m.abandoned, m.reported⟩

end Memory

/-- What an expression above a tier waits for: the operand of a sign, what stands in parentheses,
or the right operand of an infix operator. -/
inductive Frame
  | signed (tier : Nat) (operator : Token)
  | group (tier : Nat) (opening : Token)
  | join (tier : Nat) (left : Node) (height : Nat) (operator : Token)

def Frame.token : Frame → Token
  | .signed _ operator => operator
  | .group _ opening => opening
  | .join _ _ _ operator => operator

/-- What the machine does next: it enters an expression, reads the first operand of it, folds infix
operators into what was read, leaves the expression, and gives the answer to the one that waits for
it. At last it looks for what is left over. -/
inductive Control
  | enter (tier : Nat)
  | operand (tier : Nat)
  | fold (tier : Nat) (left : Node) (height : Nat)
  | leave (node : Node) (height : Nat)
  | answer (node : Node) (height : Nat)
  | finish (root : Node)
  | done (root : Node) (endOfInput : Token)

structure Machine where
  control : Control
  stack : List Frame
  memory : Memory

namespace Machine

/-- Starts an operand at a token: a sign and an opening parenthesis are followed by another
expression, and all else is a literal or lacks one. A sign has to bind as tightly as the expression
around it, which it always does (`Token.Kind.le_signTier`). -/
def operand (tier : Nat) (stack : List Frame) (m : Memory) (token : Token) : Machine :=
  if token.kind.signTier ≠ 0 ∧ tier ≤ token.kind.signTier then
    ⟨.enter token.kind.signTier, .signed tier token :: stack, m.pass token⟩
  else if token.kind = .openParen then
    ⟨.enter 0, .group tier token :: stack, m.pass token⟩
  else if token.kind.IsLiteral then
    ⟨.fold tier (.ofToken token) 1, stack, m.pass token⟩
  else
    ⟨.fold tier (.ofToken (.invented .number token.span.start)) 1, stack,
      m.report token.span (.unexpectedToken token.kind .number)⟩

def fold (tier : Nat) (left : Node) (height : Nat) (stack : List Frame) (m : Memory)
    (token : Token) : Machine :=
  if token.kind.infixTier ≤ tier then ⟨.leave left height, stack, m⟩
  else ⟨.enter token.kind.infixTier, .join tier left height token :: stack, m.pass token⟩

/-- Joins two operands, or gives the text up at their operator. -/
def join (tier : Nat) (left : Node) (leftHeight : Nat) (operator : Token) (right : Node)
    (rightHeight : Nat) (stack : List Frame) (m : Memory) : Machine :=
  if maxNesting < max leftHeight rightHeight + 1 then
    ⟨.leave left leftHeight, stack, m.abandon operator.span⟩
  else
    ⟨.fold tier (.binary left operator right) (max leftHeight rightHeight + 1), stack, m⟩

def step : Machine → Option Machine
  | ⟨.enter tier, stack, m⟩ =>
    if m.depth < maxNesting then some ⟨.operand tier, stack, { m with depth := m.depth + 1 }⟩
    else
      m.current?.map fun token =>
        ⟨.answer (.ofToken (.invented .number token.span.start)) 1, stack, m.abandon token.span⟩
  | ⟨.operand tier, stack, m⟩ => m.current?.map (operand tier stack m)
  | ⟨.fold tier left height, stack, m⟩ => m.current?.map (fold tier left height stack m)
  | ⟨.leave node height, stack, m⟩ =>
    if m.depth = 0 then none
    else some ⟨.answer node height, stack, { m with depth := m.depth - 1 }⟩
  | ⟨.answer node height, .signed tier operator :: stack, m⟩ =>
    some ⟨.fold tier (.unary operator node) (height + 1), stack, m⟩
  | ⟨.answer node height, .group tier opening :: stack, m⟩ =>
    m.current?.map fun token =>
      ⟨.fold tier (.group opening node (m.close token).1) (height + 1), stack, (m.close token).2⟩
  | ⟨.answer node height, .join tier left leftHeight operator :: stack, m⟩ =>
    some (join tier left leftHeight operator node height stack m)
  | ⟨.answer root _, [], m⟩ =>
    m.current?.map fun token => ⟨.finish root, [], m.finish token⟩
  | ⟨.finish root, stack, m⟩ =>
    m.current?.map fun token => ⟨.done root token, stack, m.pass token⟩
  | ⟨.done _ _, _, _⟩ => none

def start (lexed : Lexed) : Machine :=
  ⟨.enter 0, [], ⟨lexed.all, 0, 0, none, []⟩⟩

end Machine

structure State.StandsIn (lexed : Lexed) (s : State) : Prop where
  ahead : s.ahead <:+ lexed.tokens
  endOfInput : s.endOfInput = lexed.endOfInput

namespace State.StandsIn

variable {lexed : Lexed} {s : State}

theorem start (lexed : Lexed) : (Parser.start lexed).StandsIn lexed :=
  ⟨List.suffix_refl _, rfl⟩

theorem advance (stands : s.StandsIn lexed) : s.advance.StandsIn lexed :=
  ⟨(List.tail_suffix s.ahead).trans stands.ahead, stands.endOfInput⟩

theorem reading {room tier : Nat} {extent : Extent} {p : Parsed} (stands : s.StandsIn lexed)
    (reading : Reading room tier s extent p) : p.state.StandsIn lexed :=
  ⟨reading.isSuffix_ahead.trans stands.ahead, reading.endOfInput_eq.trans stands.endOfInput⟩

theorem finish (stands : s.StandsIn lexed) : s.finish.StandsIn lexed := by
  unfold State.finish
  split
  · exact stands
  · exact ⟨List.nil_suffix, stands.endOfInput⟩

end State.StandsIn

namespace Memory

variable {lexed : Lexed} {s : State}

structure Within (lexed : Lexed) (m : Memory) : Prop where
  tokens : m.tokens = lexed.all
  position : m.position ≤ lexed.tokens.length

namespace Within

variable {m : Memory}

theorem last_eq (within : m.Within lexed) : m.last = lexed.tokens.length := by
  rw [last, within.tokens, Lexed.all, List.length_append]
  exact Nat.add_sub_cancel _ 1

theorem current?_eq (within : m.Within lexed) : m.current? = m.tokens[m.position]? := by
  rw [current?, within.last_eq, Nat.min_eq_left within.position]

theorem ofState_state (within : m.Within lexed) :
    ofState lexed m.depth (m.state lexed) = m := by
  have position : lexed.tokens.length - (lexed.tokens.length - m.position) = m.position :=
    Nat.sub_sub_self within.position
  simp only [ofState, state, List.length_drop, position, ← within.tokens]

end Within

theorem within_ofState (lexed : Lexed) (depth : Nat) (s : State) :
    (ofState lexed depth s).Within lexed :=
  ⟨rfl, Nat.sub_le _ _⟩

theorem current?_ofState (stands : s.StandsIn lexed) (depth : Nat) :
    (ofState lexed depth s).current? = some s.current := by
  obtain ⟨read, split⟩ := stands.ahead
  have position : lexed.tokens.length - s.ahead.length = read.length := by
    rw [← split, List.length_append]
    omega
  have current : (s.ahead ++ [s.endOfInput])[0]? = some s.current := by
    cases ahead : s.ahead with
    | nil => simp [State.current, ahead]
    | cons token rest => simp [State.current, ahead]
  rw [(within_ofState lexed depth s).current?_eq]
  simp only [ofState, position]
  rw [Lexed.all, ← split, ← stands.endOfInput, List.append_assoc,
    List.getElem?_append_right (Nat.le_refl _), Nat.sub_self, current]

theorem pass_ofState (stands : s.StandsIn lexed) (ends : lexed.EndsOnce)
    (inside : s.current.kind ≠ .endOfInput) (depth : Nat) :
    (ofState lexed depth s).pass s.current = ofState lexed depth s.advance := by
  have cons := State.ahead_eq_cons (stands.endOfInput ▸ ends.ended) inside
  have length := congrArg List.length cons
  have bound := stands.ahead.length_le
  have position : lexed.tokens.length - s.ahead.length + 1 =
      lexed.tokens.length - s.advance.ahead.length := by
    rw [List.length_cons] at length
    omega
  simp only [pass, if_neg inside, ofState, position]
  rfl

theorem report_ofState (depth : Nat) (span : Span) (problem : Problem) :
    (ofState lexed depth s).report span problem = ofState lexed depth (s.report span problem) :=
  rfl

theorem skip_ofState (depth : Nat) :
    (ofState lexed depth s).skip = ofState lexed depth { s with ahead := [] } := by
  rw [skip, (within_ofState lexed depth s).last_eq]
  rfl

theorem abandon_ofState (depth : Nat) (span : Span) :
    (ofState lexed depth s).abandon span = ofState lexed depth (s.abandon span depth) := by
  have same : (ofState lexed depth s).abandoned = s.abandoned := rfl
  cases given : s.abandoned with
  | none =>
    simp only [abandon, State.abandon, same, given, report_ofState, skip_ofState]
    rfl
  | some place => simp only [abandon, State.abandon, same, given, skip_ofState]

theorem close_ofState (stands : s.StandsIn lexed) (ends : lexed.EndsOnce) (depth : Nat) :
    (ofState lexed depth s).close s.current = (s.close.1, ofState lexed depth s.close.2) := by
  by_cases closes : s.current.kind = .closeParen
  · have inside : s.current.kind ≠ .endOfInput := by
      rw [closes]
      decide
    simp only [close, State.close, if_pos closes, pass_ofState stands ends inside]
  · have same : (ofState lexed depth s).abandoned = s.abandoned := rfl
    simp only [close, State.close, if_neg closes, same, report_ofState]
    split
    · rfl
    · rfl

theorem finish_ofState (stands : s.StandsIn lexed) (ends : lexed.EndsOnce) (depth : Nat) :
    (ofState lexed depth s).finish s.current = ofState lexed depth s.finish := by
  cases ahead : s.ahead with
  | nil =>
    have current : s.current.kind = .endOfInput := by
      simp only [State.current, ahead, stands.endOfInput, ends.ended]
    simp only [finish, if_pos current, State.finish, ahead]
  | cons token rest =>
    have current : s.current = token := by
      simp only [State.current, ahead]
    have other : token.kind ≠ .endOfInput :=
      ends.inside token (stands.ahead.subset (by simp [ahead]))
    simp only [finish, State.finish, current, if_neg other, ahead, report_ofState, skip_ofState]

end Memory

open StateTransition (Reaches)

namespace Machine

variable {lexed : Lexed} {s : State}

theorem reaches_operand (stands : s.StandsIn lexed) {depth room : Nat}
    (limit : depth + (room + 1) = maxNesting) (tier : Nat) (stack : List Frame) :
    Reaches step ⟨.enter tier, stack, .ofState lexed depth s⟩
      (operand tier stack (.ofState lexed (depth + 1) s) s.current) := by
  have entered : step ⟨.enter tier, stack, .ofState lexed depth s⟩ =
      some ⟨.operand tier, stack, .ofState lexed (depth + 1) s⟩ :=
    if_pos (by simp only [Memory.ofState]; omega)
  have started : step ⟨.operand tier, stack, .ofState lexed (depth + 1) s⟩ =
      some (operand tier stack (.ofState lexed (depth + 1) s) s.current) := by
    rw [step, Memory.current?_ofState stands, Option.map_some]
  exact .head entered (.single started)

theorem step_fold (stands : s.StandsIn lexed) (depth tier : Nat) (left : Node) (height : Nat)
    (stack : List Frame) :
    step ⟨.fold tier left height, stack, .ofState lexed depth s⟩ =
      some (fold tier left height stack (.ofState lexed depth s) s.current) := by
  rw [step, Memory.current?_ofState stands, Option.map_some]

theorem reaches_join (ends : lexed.EndsOnce) {left right : Parsed}
    (stands : left.state.StandsIn lexed) {depth tier : Nat} (stack : List Frame)
    (above : tier < left.state.current.kind.infixTier)
    (second : ∀ stack : List Frame,
      Reaches step
        ⟨.enter left.state.current.kind.infixTier, stack, .ofState lexed depth left.state.advance⟩
        ⟨.answer right.node right.height, stack, .ofState lexed depth right.state⟩) :
    Reaches step ⟨.fold tier left.node left.height, stack, .ofState lexed depth left.state⟩
      (join tier left.node left.height left.state.current right.node right.height stack
        (.ofState lexed depth right.state)) := by
  have inside := Token.Kind.ne_endOfInput_of_lt_infixTier above
  have entered := step_fold stands depth tier left.node left.height stack
  rw [fold, if_neg (by omega), Memory.pass_ofState stands ends inside] at entered
  exact .head entered ((second _).tail rfl)

end Machine

/-- Where the machine stands when so much of an expression is read. -/
def Extent.machine (lexed : Lexed) (depth tier : Nat) (stack : List Frame) (p : Parsed) :
    Extent → Machine
  | .begun => ⟨.fold tier p.node p.height, stack, .ofState lexed (depth + 1) p.state⟩
  | .whole => ⟨.answer p.node p.height, stack, .ofState lexed depth p.state⟩

/-- What is read of an expression is what the machine comes to from where it enters it. The stack
is left as it was, and so is the depth once the expression is whole. -/
theorem Reading.reaches {lexed : Lexed} (ends : lexed.EndsOnce)
    {room tier : Nat} {s : State} {extent : Extent} {p : Parsed}
    (reading : Reading room tier s extent p) (bounded : tier < 7) (stands : s.StandsIn lexed)
    {depth : Nat} (limit : depth + room = maxNesting) (stack : List Frame) :
    Reaches Machine.step ⟨.enter tier, stack, .ofState lexed depth s⟩
      (extent.machine lexed depth tier stack p) := by
  -- An inner expression has less room at a greater depth, and finds one more frame on the stack.
  induction reading generalizing depth stack with
  | exhausted tier s =>
    have full : ¬ (Memory.ofState lexed depth s).depth < maxNesting := Nat.not_lt.mpr limit.ge
    refine .single (?_ : Machine.step _ = some _)
    rw [Machine.step, if_neg full, Memory.current?_ofState stands, Option.map_some,
      Memory.abandon_ofState, show depth = maxNesting from limit]
    rfl
  | @signed room tier s operand sign inner ih =>
    have inside := Token.Kind.ne_endOfInput_of_signTier sign
    have binds : tier ≤ s.current.kind.signTier := Token.Kind.le_signTier sign bounded
    have entered := Machine.reaches_operand stands limit tier stack
    rw [Machine.operand, if_pos ⟨sign, binds⟩, Memory.pass_ofState stands ends inside] at entered
    have deeper : depth + 1 + room = maxNesting := by omega
    have tight := s.current.kind.signTier_lt_seven
    exact (entered.trans (ih tight stands.advance deeper _)).tail rfl
  | @group room tier s body opens inner ih =>
    have inside : s.current.kind ≠ .endOfInput := by
      rw [opens]
      decide
    have noSign : s.current.kind.signTier = 0 := by
      rw [opens]
      rfl
    have entered := Machine.reaches_operand stands limit tier stack
    rw [Machine.operand, if_neg (by simp [noSign]), if_pos opens,
      Memory.pass_ofState stands ends inside] at entered
    have behind := stands.advance.reading inner
    have closed : Machine.step ⟨.answer body.node body.height, .group tier s.current :: stack,
        .ofState lexed (depth + 1) body.state⟩ =
        some ⟨.fold tier (.group s.current body.node body.state.close.1) (body.height + 1), stack,
          .ofState lexed (depth + 1) body.state.close.2⟩ := by
      rw [Machine.step, Memory.current?_ofState behind, Option.map_some,
        Memory.close_ofState behind ends]
    have deeper : depth + 1 + room = maxNesting := by omega
    exact (entered.trans (ih (by decide) stands.advance deeper _)).tail closed
  | @literal room tier s kind =>
    have entered := Machine.reaches_operand stands limit tier stack
    rwa [Machine.operand, if_neg (by simp [kind.signTier_eq]), if_neg kind.ne_openParen,
      if_pos kind, Memory.pass_ofState stands ends kind.ne_endOfInput] at entered
  | @missing room tier s noSign noParen noLiteral =>
    have entered := Machine.reaches_operand stands limit tier stack
    rwa [Machine.operand, if_neg (by simp [noSign]), if_neg noParen, if_neg noLiteral,
      Memory.report_ofState] at entered
  | @join room tier s left right first above second low ihl ihr =>
    have behind := stands.reading first
    have deeper : depth + 1 + room = maxNesting := by omega
    have tight := left.state.current.kind.infixTier_lt_seven
    have joined := Machine.reaches_join ends behind stack above (ihr tight behind.advance deeper)
    rw [Machine.join, if_neg (by omega)] at joined
    exact (ihl bounded stands limit stack).trans joined
  | @drop room tier s left right first above second high ihl ihr =>
    have behind := stands.reading first
    have deeper : depth + 1 + room = maxNesting := by omega
    have tight := left.state.current.kind.infixTier_lt_seven
    have dropped := Machine.reaches_join ends behind stack above (ihr tight behind.advance deeper)
    rw [Machine.join, if_pos high, Memory.abandon_ofState] at dropped
    -- The text is given up while the expression of the operator is still open.
    rw [show maxNesting - room = depth + 1 by omega]
    exact ((ihl bounded stands limit stack).trans dropped).tail rfl
  | @stop room tier s left first below ih =>
    have behind := stands.reading first
    have lower := State.infixTier_current_le (behind.endOfInput ▸ ends.ended) below
    have stopped := Machine.step_fold behind (depth + 1) tier left.node left.height stack
    rw [Machine.fold, if_pos lower] at stopped
    exact ((ih bounded stands limit stack).tail stopped).tail rfl

end Parser

end Reckon
