import Reckon.Proofs.Node.Reading

/-!
Parsing does not look at places. If the tokens of a text are moved, and the empty places at which
tokens may be invented move with them, then the tree and the reports move in the same way, and
nothing else changes.
-/

set_option autoImplicit false
set_option relaxedAutoImplicit false

namespace Reckon

variable (move : Span → Span)

def Token.relocate (token : Token) : Token :=
  { token with span := move token.span }

@[simp] theorem Token.kind_relocate (token : Token) : (token.relocate move).kind = token.kind := rfl

@[simp] theorem Token.span_relocate (token : Token) :
    (token.relocate move).span = move token.span := rfl

/-- The empty place in front of a token moves with the token. -/
def Token.Aligned (token : Token) : Prop :=
  move (.emptyAt token.span.start) = .emptyAt (move token.span).start

def Diagnostic.relocate (d : Diagnostic) : Diagnostic :=
  { d with span := move d.span }

def Node.relocate : Node → Node
  | .literal token value => .literal (token.relocate move) value
  | .unary operator operand => .unary (operator.relocate move) operand.relocate
  | .binary left operator right =>
    .binary left.relocate (operator.relocate move) right.relocate
  | .group opening inner closing =>
    .group (opening.relocate move) inner.relocate (closing.relocate move)

def Abandonment.relocate (a : Abandonment) : Abandonment :=
  { a with span := move a.span }

def Parse.relocate (p : Parse) : Parse :=
  ⟨p.root.relocate move, p.diagnostics.map (.relocate move), p.abandoned.map (.relocate move)⟩

theorem Diagnostic.map_relocate_report (reported : List Diagnostic) (span : Span)
    (problem : Problem) :
    (Diagnostic.report reported span problem).map (.relocate move) =
      Diagnostic.report (reported.map (.relocate move)) (move span) problem := by
  simp [Diagnostic.report, Diagnostic.relocate, Diagnostic.error]

theorem Token.Aligned.relocate_invented {move : Span → Span} {token : Token}
    (aligned : token.Aligned move) (kind : Token.Kind) :
    (Token.invented kind token.span.start).relocate move =
      .invented kind (move token.span).start := by
  rw [Token.relocate, Token.invented, aligned]
  rfl

namespace Parser

namespace State

def relocate (s : State) : State where
  ahead := s.ahead.map (.relocate move)
  endOfInput := s.endOfInput.relocate move
  abandoned := s.abandoned.map (.relocate move)
  reported := s.reported.map (.relocate move)

structure Aligned (s : State) : Prop where
  ahead : ∀ token ∈ s.ahead, token.Aligned move
  endOfInput : s.endOfInput.Aligned move

variable {move} {s : State}

theorem current_relocate : (s.relocate move).current = s.current.relocate move := by
  unfold current relocate
  cases s.ahead with
  | nil => rfl
  | cons token rest => rfl

theorem advance_relocate : (s.relocate move).advance = s.advance.relocate move := by
  simp [advance, relocate, List.map_tail]

theorem report_relocate (span : Span) (problem : Problem) :
    (s.relocate move).report (move span) problem = (s.report span problem).relocate move := by
  simp [report, relocate, Diagnostic.map_relocate_report]

theorem abandon_relocate (span : Span) (depth : Nat) :
    (s.relocate move).abandon (move span) depth = (s.abandon span depth).relocate move := by
  cases given : s.abandoned with
  | some place => simp [abandon, relocate, given]
  | none =>
    simp [abandon, report, relocate, given, Diagnostic.map_relocate_report, Abandonment.relocate]

theorem finish_relocate : (s.relocate move).finish = s.finish.relocate move := by
  cases ahead : s.ahead with
  | nil => simp [finish, relocate, ahead]
  | cons token rest =>
    simp [finish, report, relocate, ahead, Diagnostic.map_relocate_report, Token.relocate]

namespace Aligned

theorem current (aligned : s.Aligned move) : s.current.Aligned move := by
  unfold State.current
  split
  next => exact aligned.endOfInput
  next token rest ahead => exact aligned.ahead token (by simp [ahead])

theorem advance (aligned : s.Aligned move) : s.advance.Aligned move :=
  ⟨fun token member => aligned.ahead token (List.mem_of_mem_tail member), aligned.endOfInput⟩

theorem report (aligned : s.Aligned move) (span : Span) (problem : Problem) :
    (s.report span problem).Aligned move :=
  ⟨aligned.ahead, aligned.endOfInput⟩

theorem abandon (aligned : s.Aligned move) (span : Span) (depth : Nat) :
    (s.abandon span depth).Aligned move := by
  refine ⟨?_, ?_⟩
  · intro token member
    rw [ahead_abandon] at member
    cases member
  · rw [endOfInput_abandon]
    exact aligned.endOfInput

theorem close (aligned : s.Aligned move) : s.close.2.Aligned move := by
  refine ⟨?_, ?_⟩
  · intro token member
    exact aligned.ahead token (s.isSuffix_ahead_close.subset member)
  · rw [endOfInput_close]
    exact aligned.endOfInput

end Aligned

theorem close_relocate (aligned : s.Aligned move) :
    (s.relocate move).close = (s.close.1.relocate move, s.close.2.relocate move) := by
  have given : (s.relocate move).abandoned.isSome = s.abandoned.isSome := Option.isSome_map
  have invented := aligned.current.relocate_invented .closeParen
  have reported := @report_relocate move s s.current.span .unclosedParenthesis
  unfold close
  rw [current_relocate, advance_relocate, Token.kind_relocate, given]
  by_cases closes : s.current.kind = .closeParen
  · rw [if_pos closes, if_pos closes]
  · rw [if_neg closes, if_neg closes, invented]
    cases s.abandoned.isSome with
    | true => rfl
    | false => exact congrArg (Prod.mk _) reported

end State

def Parsed.relocate (move : Span → Span) (p : Parsed) : Parsed :=
  ⟨p.node.relocate move, p.height, p.state.relocate move⟩

@[simp] theorem Parsed.height_relocate (move : Span → Span) (p : Parsed) :
    (p.relocate move).height = p.height := rfl

/-- A way of reading does not look at places: where tokens are moved, what is read is moved, and
the tokens that are left stay aligned. -/
def Natural (move : Span → Span) (read : State → Parsed) : Prop :=
  ∀ s : State, s.Aligned move →
    read (s.relocate move) = (read s).relocate move ∧ (read s).state.Aligned move

variable {move : Span → Span} {inner : Nat → State → Parsed}

theorem natural_signed (natural : ∀ tier, Natural move (inner tier)) :
    Natural move (signed inner) := by
  intro s aligned
  obtain ⟨same, later⟩ := natural s.current.kind.signTier s.advance aligned.advance
  refine ⟨?_, later⟩
  unfold signed
  rw [State.current_relocate, State.advance_relocate, Token.kind_relocate, same]
  rfl

theorem natural_group (natural : ∀ tier, Natural move (inner tier)) :
    Natural move (group inner) := by
  intro s aligned
  obtain ⟨same, later⟩ := natural 0 s.advance aligned.advance
  refine ⟨?_, later.close⟩
  unfold group
  rw [State.current_relocate, State.advance_relocate, same]
  simp only [Parsed.relocate, State.close_relocate later]
  rfl

theorem natural_literal : Natural move literal := by
  intro s aligned
  unfold literal
  rw [State.current_relocate, State.advance_relocate, Token.kind_relocate]
  split
  next => exact ⟨rfl, aligned.advance⟩
  next =>
    have invented := aligned.current.relocate_invented .number
    have reported := @State.report_relocate move s s.current.span
      (.unexpectedToken s.current.kind .number)
    refine ⟨?_, aligned.report _ _⟩
    rw [Token.span_relocate, reported, ← invented]
    rfl

theorem natural_operand (natural : ∀ tier, Natural move (inner tier)) :
    Natural move (operand inner) := by
  intro s aligned
  unfold operand
  rw [State.current_relocate, Token.kind_relocate]
  split
  next => exact natural_signed natural s aligned
  next =>
    split
    next => exact natural_group natural s aligned
    next => exact natural_literal s aligned

theorem natural_fold (natural : ∀ tier, Natural move (inner tier)) (depth tier rounds : Nat)
    {left : Parsed} (aligned : left.state.Aligned move) :
    fold inner depth tier rounds (left.relocate move) =
      (fold inner depth tier rounds left).relocate move ∧
    (fold inner depth tier rounds left).state.Aligned move := by
  induction rounds generalizing left with
  | zero => exact ⟨rfl, aligned⟩
  | succ rounds ih =>
    have current : (left.relocate move).state.current = left.state.current.relocate move :=
      State.current_relocate
    have advance : (left.relocate move).state.advance = left.state.advance.relocate move :=
      State.advance_relocate
    obtain ⟨same, later⟩ :=
      natural left.state.current.kind.infixTier left.state.advance aligned.advance
    unfold fold
    simp only [current, advance, Token.kind_relocate, same, Parsed.height_relocate]
    generalize inner left.state.current.kind.infixTier left.state.advance = right at later ⊢
    split
    next => exact ⟨rfl, aligned⟩
    next =>
      split
      next =>
        have given := @State.abandon_relocate move right.state left.state.current.span depth
        refine ⟨?_, later.abandon _ _⟩
        exact congrArg (Parsed.mk (left.node.relocate move) left.height) given
      next =>
        exact @ih ⟨.binary left.node left.state.current right.node,
          max left.height right.height + 1, right.state⟩ later

theorem natural_expression (room tier : Nat) : Natural move (expression room tier) := by
  induction room generalizing tier with
  | zero =>
    intro s aligned
    have invented := aligned.current.relocate_invented .number
    refine ⟨?_, aligned.abandon _ _⟩
    simp only [expression]
    rw [State.current_relocate, Token.span_relocate, State.abandon_relocate, ← invented]
    rfl
  | succ room ih =>
    intro s aligned
    obtain ⟨same, later⟩ := natural_operand ih s aligned
    have length : (s.relocate move).ahead.length = s.ahead.length := List.length_map _
    simp only [expression, same, length]
    exact natural_fold ih _ _ _ later

end Parser

/-- Parsing moved tokens gives what parsing gave, moved. -/
theorem Parse.ofLexed_relocate {move : Span → Span} {lexed moved : Lexed}
    (tokens : moved.tokens = lexed.tokens.map (.relocate move))
    (endOfInput : moved.endOfInput = lexed.endOfInput.relocate move)
    (aligned : ∀ token ∈ lexed.all, token.Aligned move) :
    ofLexed moved = (ofLexed lexed).relocate move := by
  have start : Parser.start moved = (Parser.start lexed).relocate move := by
    simp [Parser.start, Parser.State.relocate, tokens, endOfInput]
  have fits : (Parser.start lexed).Aligned move := by
    refine ⟨fun token member => ?_, ?_⟩
    · exact aligned token (List.mem_append_left _ member)
    · exact aligned _ (by simp [Lexed.all, Parser.start])
  obtain ⟨same, -⟩ := Parser.natural_expression maxNesting 0 (Parser.start lexed) fits
  unfold ofLexed
  rw [start, same]
  simp only [Parser.Parsed.relocate, Parser.State.finish_relocate]
  rfl

end Reckon
