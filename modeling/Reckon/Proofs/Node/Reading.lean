import Reckon.Proofs.Node.Grammar

/-!
How an expression is read, as rules. There is one rule for every way in which a step of parsing
ends, errors and abandonment included, and `reading_expression` says that parsing follows them.
What holds of every parse is proved by induction over the rules, and no later proof opens the
parser again.
-/

set_option autoImplicit false
set_option relaxedAutoImplicit false

namespace Reckon.Parser

namespace State

@[simp] theorem endOfInput_advance (s : State) : s.advance.endOfInput = s.endOfInput := rfl

@[simp] theorem endOfInput_abandon (s : State) (span : Span) (depth : Nat) :
    (s.abandon span depth).endOfInput = s.endOfInput := by
  unfold abandon
  split <;> rfl

@[simp] theorem ahead_abandon (s : State) (span : Span) (depth : Nat) :
    (s.abandon span depth).ahead = [] := by
  unfold abandon
  split <;> rfl

@[simp] theorem endOfInput_close (s : State) : s.close.2.endOfInput = s.endOfInput := by
  unfold close
  split
  · rfl
  · simp only
    split <;> rfl

theorem isSuffix_ahead_close (s : State) : s.close.2.ahead <:+ s.ahead := by
  unfold close
  split
  · exact List.tail_suffix s.ahead
  · simp only
    split <;> exact List.suffix_refl s.ahead

theorem isPrefix_reported_abandon (s : State) (span : Span) (depth : Nat) :
    s.reported <+: (s.abandon span depth).reported := by
  unfold abandon
  split
  · exact List.prefix_refl s.reported
  · exact List.prefix_append s.reported _

theorem isPrefix_reported_close (s : State) : s.reported <+: s.close.2.reported := by
  unfold close
  split
  · exact List.prefix_refl s.reported
  · simp only
    split
    · exact List.prefix_refl s.reported
    · exact List.prefix_append s.reported _

theorem ahead_eq_cons {s : State} (ended : s.endOfInput.kind = .endOfInput)
    (inside : s.current.kind ≠ .endOfInput) : s.ahead = s.current :: s.advance.ahead := by
  cases ahead : s.ahead with
  | nil =>
    have current : s.current = s.endOfInput := by
      simp only [current, ahead]
    rw [current] at inside
    exact absurd ended inside
  | cons token rest =>
    simp only [current, advance, ahead, List.tail_cons]

theorem infixTier_current_le {s : State} {tier : Nat} (ended : s.endOfInput.kind = .endOfInput)
    (below : s.ahead ≠ [] → s.current.kind.infixTier ≤ tier) :
    s.current.kind.infixTier ≤ tier := by
  by_cases ahead : s.ahead = []
  · simp only [current, ahead, ended, Token.Kind.infixTier]
    exact Nat.zero_le tier
  · exact below ahead

end State

/-- How far an expression is read: its first operand and some of its infix operators, or all of
it. -/
inductive Extent
  | begun
  | whole

/-- What reading an expression can end in, with room for so many levels and for infix operators
above a tier. -/
inductive Reading : Nat → Nat → State → Extent → Parsed → Prop
  | exhausted (tier : Nat) (s : State) :
      Reading 0 tier s .whole
        ⟨.ofToken (.invented .number s.current.span.start), 1,
          s.abandon s.current.span maxNesting⟩
  | signed {room tier : Nat} {s : State} {operand : Parsed}
      (sign : s.current.kind.signTier ≠ 0)
      (inner : Reading room s.current.kind.signTier s.advance .whole operand) :
      Reading (room + 1) tier s .begun
        ⟨.unary s.current operand.node, operand.height + 1, operand.state⟩
  | group {room tier : Nat} {s : State} {body : Parsed}
      (opens : s.current.kind = .openParen)
      (inner : Reading room 0 s.advance .whole body) :
      Reading (room + 1) tier s .begun
        ⟨.group s.current body.node body.state.close.1, body.height + 1, body.state.close.2⟩
  | literal {room tier : Nat} {s : State}
      (kind : s.current.kind.IsLiteral) :
      Reading (room + 1) tier s .begun ⟨.ofToken s.current, 1, s.advance⟩
  | missing {room tier : Nat} {s : State} (noSign : s.current.kind.signTier = 0)
      (noParen : s.current.kind ≠ .openParen) (noLiteral : ¬ s.current.kind.IsLiteral) :
      Reading (room + 1) tier s .begun
        ⟨.ofToken (.invented .number s.current.span.start), 1,
          s.report s.current.span (.unexpectedToken s.current.kind .number)⟩
  | join {room tier : Nat} {s : State} {left right : Parsed}
      (first : Reading (room + 1) tier s .begun left)
      (above : tier < left.state.current.kind.infixTier)
      (second : Reading room left.state.current.kind.infixTier left.state.advance .whole right)
      (low : max left.height right.height + 1 ≤ maxNesting) :
      Reading (room + 1) tier s .begun
        ⟨.binary left.node left.state.current right.node, max left.height right.height + 1,
          right.state⟩
  | drop {room tier : Nat} {s : State} {left right : Parsed}
      (first : Reading (room + 1) tier s .begun left)
      (above : tier < left.state.current.kind.infixTier)
      (second : Reading room left.state.current.kind.infixTier left.state.advance .whole right)
      (high : maxNesting < max left.height right.height + 1) :
      Reading (room + 1) tier s .whole
        ⟨left.node, left.height,
          right.state.abandon left.state.current.span (maxNesting - room)⟩
  | stop {room tier : Nat} {s : State} {left : Parsed}
      (first : Reading (room + 1) tier s .begun left)
      (below : left.state.ahead ≠ [] → left.state.current.kind.infixTier ≤ tier) :
      Reading (room + 1) tier s .whole left

namespace Reading

variable {room tier : Nat} {s : State} {extent : Extent} {p : Parsed}

theorem endOfInput_eq (reading : Reading room tier s extent p) :
    p.state.endOfInput = s.endOfInput := by
  induction reading with
  | exhausted => simp
  | signed _ _ ih => simpa using ih
  | group _ _ ih => simpa using ih
  | literal => rfl
  | missing => rfl
  | join _ _ _ _ ihl ihr => simpa [ihl] using ihr
  | drop _ _ _ _ ihl ihr => simpa [ihl] using ihr
  | stop _ _ ih => exact ih

theorem ended (reading : Reading room tier s extent p)
    (ended : s.endOfInput.kind = .endOfInput) : p.state.endOfInput.kind = .endOfInput := by
  rw [reading.endOfInput_eq]
  exact ended

theorem isSuffix_ahead (reading : Reading room tier s extent p) : p.state.ahead <:+ s.ahead := by
  induction reading with
  | exhausted => simp
  | signed _ _ ih => exact ih.trans (List.tail_suffix _)
  | @group _ _ _ body _ _ ih =>
    exact (body.state.isSuffix_ahead_close.trans ih).trans (List.tail_suffix _)
  | literal => exact List.tail_suffix _
  | missing => exact List.suffix_refl _
  | join _ _ _ _ ihl ihr => exact (ihr.trans (List.tail_suffix _)).trans ihl
  | drop => simp
  | stop _ _ ih => exact ih

theorem isPrefix_reported (reading : Reading room tier s extent p) :
    s.reported <+: p.state.reported := by
  induction reading with
  | exhausted => exact State.isPrefix_reported_abandon _ _ _
  | signed _ _ ih => exact ih
  | @group _ _ _ body _ _ ih => exact ih.trans body.state.isPrefix_reported_close
  | literal => exact List.prefix_refl _
  | missing => exact List.prefix_append _ _
  | join _ _ _ _ ihl ihr => exact ihl.trans ihr
  | drop _ _ _ _ ihl ihr => exact (ihl.trans ihr).trans (State.isPrefix_reported_abandon _ _ _)
  | stop _ _ ih => exact ih

theorem height_eq (reading : Reading room tier s extent p) : p.height = p.node.height := by
  induction reading with
  | exhausted => rfl
  | signed _ _ ih => exact congrArg (· + 1) ih
  | group _ _ ih => exact congrArg (· + 1) ih
  | literal => rfl
  | missing => rfl
  | join _ _ _ _ ihl ihr => simp only [Node.height, ihl, ihr]
  | drop _ _ _ _ ihl _ => exact ihl
  | stop _ _ ih => exact ih

theorem foldsWithin (reading : Reading room tier s extent p) :
    p.node.FoldsWithin maxNesting := by
  induction reading with
  | exhausted => exact trivial
  | signed _ _ ih => exact ih
  | group _ _ ih => exact ih
  | literal => exact trivial
  | missing => exact trivial
  | join first _ second low ihl ihr =>
    rw [first.height_eq, second.height_eq] at low
    exact ⟨low, ihl, ihr⟩
  | drop _ _ _ _ ihl _ => exact ihl
  | stop _ _ ih => exact ih

end Reading

private theorem reading_operand {room : Nat}
    (inner : ∀ (tier : Nat) (s : State), Reading room tier s .whole (expression room tier s))
    (tier : Nat) (s : State) :
    Reading (room + 1) tier s .begun (operand (expression room) s) := by
  unfold operand
  split
  next sign => exact .signed sign (inner _ _)
  next noSign =>
    split
    next opens => exact .group opens (inner _ _)
    next noParen =>
      unfold literal
      split
      next kind => exact .literal kind
      next noLiteral => exact .missing (Decidable.not_not.mp noSign) noParen noLiteral

/-- Every infix operator takes a token if there is one, so that the rounds never run out before the
tokens. -/
private theorem reading_fold {room tier : Nat} {s : State}
    (inner : ∀ (tier : Nat) (s : State), Reading room tier s .whole (expression room tier s))
    (rounds : Nat) (left : Parsed) (first : Reading (room + 1) tier s .begun left)
    (enough : left.state.ahead.length ≤ rounds) :
    Reading (room + 1) tier s .whole
      (fold (expression room) (maxNesting - room) tier rounds left) := by
  induction rounds generalizing left with
  | zero =>
    have nothing : left.state.ahead = [] := List.eq_nil_of_length_eq_zero (by omega)
    exact .stop first fun more => absurd nothing more
  | succ rounds ih =>
    unfold fold
    simp only
    split
    next below => exact .stop first fun _ => below
    next above =>
      have above : tier < left.state.current.kind.infixTier := by omega
      have second := inner left.state.current.kind.infixTier left.state.advance
      split
      next high => exact .drop first above second high
      next low =>
        have advanced : left.state.advance.ahead.length = left.state.ahead.length - 1 :=
          List.length_tail
        have read := second.isSuffix_ahead.length_le
        refine ih _ (.join first above second (by omega)) ?_
        simp only
        omega

/-- Parsing follows the rules, from every state. -/
theorem reading_expression (room tier : Nat) (s : State) :
    Reading room tier s .whole (expression room tier s) := by
  induction room generalizing tier s with
  | zero => exact .exhausted tier s
  | succ room ih =>
    have first := reading_operand ih tier s
    exact reading_fold ih s.ahead.length _ first first.isSuffix_ahead.length_le

end Reckon.Parser
