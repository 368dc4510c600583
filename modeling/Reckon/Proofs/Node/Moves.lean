import Mathlib.Logic.Relation
import Reckon.Proofs.Node.Acceptance
import Reckon.Proofs.Token.Tiling

/-!
Parsing as moves, one token at a time. Every reading is a sequence of moves that adds the tokens of
its node to those of the tree. There are few kinds of moves, so that what holds of the tokens and
reports of every parse is proved for one move, and `Moves.preserves` carries it to the end.
-/

set_option autoImplicit false
set_option relaxedAutoImplicit false

namespace Reckon

namespace Token

/-- A token that a text does not hold: it takes no bytes, and it has no text. -/
def IsInvented (token : Token) : Prop :=
  token.span.length = 0 ∧ token.text = ""

instance : DecidablePred IsInvented :=
  fun _ => inferInstanceAs (Decidable (_ ∧ _))

/-- The tokens of a row that are not invented. -/
def written (row : List Token) : List Token :=
  row.filter fun token => ¬ token.IsInvented

theorem isInvented_invented (kind : Kind) (start : Nat) : (invented kind start).IsInvented :=
  ⟨rfl, rfl⟩

theorem written_append_invented (row : List Token) (kind : Kind) (start : Nat) :
    written (row ++ [.invented kind start]) = written row := by
  simp [written, isInvented_invented]

theorem written_append_of_not {token : Token} (real : ¬ token.IsInvented) (row : List Token) :
    written (row ++ [token]) = written row ++ [token] := by
  simp [written, real]

end Token

theorem Lexed.not_isInvented {text : String} {token : Token}
    (member : token ∈ (ofText text).tokens) : ¬ token.IsInvented := by
  obtain ⟨_, _, -, positive, -⟩ := longestMatch_of_mem_tokens member
  rintro ⟨empty, -⟩
  omega

namespace Parser

/-- How far a text is parsed: the tokens that the tree has so far, from left to right, and where
parsing stands. -/
structure Progress where
  kept : List Token
  state : State

/-- What can happen to the tokens of a tree. A token is read; or one is missing, is reported unless
the text was given up, and is invented; or the text is given up, at an operand that there is no
room for or at an operator, which is dropped with all that was read behind it. No operand is missing
from a text that was given up. -/
inductive Move : Progress → Progress → Prop
  | read {kept : List Token} {s : State} (inside : s.ahead = s.current :: s.advance.ahead) :
      Move ⟨kept, s⟩ ⟨kept ++ [s.current], s.advance⟩
  | lackOperand {kept : List Token} {s : State} (fresh : s.abandoned = none) :
      Move ⟨kept, s⟩
        ⟨kept ++ [.invented .number s.current.span.start],
          s.report s.current.span (.unexpectedToken s.current.kind .number)⟩
  | lackClosing {kept : List Token} {s : State} (fresh : s.abandoned = none) :
      Move ⟨kept, s⟩
        ⟨kept ++ [.invented .closeParen s.current.span.start],
          s.report s.current.span .unclosedParenthesis⟩
  | closeAbandoned {kept : List Token} {s : State} (given : s.abandoned ≠ none) :
      Move ⟨kept, s⟩ ⟨kept ++ [.invented .closeParen s.current.span.start], s⟩
  | exhaust {kept : List Token} {s : State} (fresh : s.abandoned = none) (depth : Nat) :
      Move ⟨kept, s⟩
        ⟨kept ++ [.invented .number s.current.span.start], s.abandon s.current.span depth⟩
  | drop {kept dropped : List Token} {operator : Token} {s : State} (depth : Nat) :
      Move ⟨kept ++ operator :: dropped, s⟩ ⟨kept, s.abandon operator.span depth⟩

abbrev Moves : Progress → Progress → Prop :=
  Relation.ReflTransGen Move

theorem Moves.preserves {P : Progress → Prop} (step : ∀ {a b : Progress}, Move a b → P a → P b)
    {a b : Progress} (moves : Moves a b) (start : P a) : P b := by
  induction moves with
  | refl => exact start
  | tail _ move ih => exact step move ih

/-- No token is left of a text that was given up. -/
def State.Settled (s : State) : Prop :=
  s.abandoned ≠ none → s.ahead = []

theorem State.settled_of_fresh {s : State} (fresh : s.abandoned = none) : s.Settled :=
  fun given => absurd fresh given

theorem State.Settled.fresh {s : State} {token : Token} {rest : List Token} (settled : s.Settled)
    (ahead : s.ahead = token :: rest) : s.abandoned = none := by
  apply Decidable.byContradiction
  intro given
  rw [settled given] at ahead
  cases ahead

theorem Move.settled {a b : Progress} (move : Move a b) (settled : a.state.Settled) :
    b.state.Settled := by
  intro given
  cases move with
  | read inside =>
    rw [settled given] at inside
    cases inside
  | lackOperand fresh => exact absurd fresh given
  | lackClosing fresh => exact absurd fresh given
  | closeAbandoned => exact settled given
  | exhaust => exact State.ahead_abandon _ _ _
  | drop => exact State.ahead_abandon _ _ _

theorem move_close {s : State} (ended : s.endOfInput.kind = .endOfInput) (kept : List Token) :
    Move ⟨kept, s⟩ ⟨kept ++ [s.close.1], s.close.2⟩ := by
  by_cases closes : s.current.kind = .closeParen
  · have inside : s.current.kind ≠ .endOfInput := by
      rw [closes]
      decide
    rw [State.close, if_pos closes]
    exact .read (State.ahead_eq_cons ended inside)
  · rw [State.close, if_neg closes]
    cases given : s.abandoned with
    | none => exact .lackClosing given
    | some place => exact .closeAbandoned (by simp [given])

private theorem moves_operator {tier : Nat} {kept between behind : List Token} {s t u : State}
    (fresh : s.abandoned = none) (first : Moves ⟨kept, s⟩ ⟨kept ++ between, t⟩)
    (ended : t.endOfInput.kind = .endOfInput) (above : tier < t.current.kind.infixTier)
    (second : t.abandoned = none → ∀ kept : List Token,
      Moves ⟨kept, t.advance⟩ ⟨kept ++ behind, u⟩) :
    Moves ⟨kept, s⟩ ⟨kept ++ between ++ t.current :: behind, u⟩ := by
  have inside := State.ahead_eq_cons ended (Token.Kind.ne_endOfInput_of_lt_infixTier above)
  have settled := first.preserves Move.settled (State.settled_of_fresh fresh)
  have later : t.abandoned = none := settled.fresh inside
  have rest := second later (kept ++ between ++ [t.current])
  rw [List.append_assoc (kept ++ between)] at rest
  exact first.trans (.head (.read inside) rest)

/-- A reading that starts before the text is given up is a sequence of moves. -/
theorem Reading.moves {room tier : Nat} {s : State} {extent : Extent} {p : Parsed}
    (reading : Reading room tier s extent p) (ended : s.endOfInput.kind = .endOfInput)
    (fresh : s.abandoned = none) (kept : List Token) :
    Moves ⟨kept, s⟩ ⟨kept ++ p.node.tokens, p.state⟩ := by
  induction reading generalizing kept with
  | exhausted => exact .single (.exhaust fresh _)
  | @signed _ _ s operand sign _ ih =>
    have inside := Token.Kind.ne_endOfInput_of_signTier sign
    have rest := ih ended fresh (kept ++ [s.current])
    rw [List.append_assoc] at rest
    exact .head (.read (State.ahead_eq_cons ended inside)) rest
  | @group _ _ s body opens inner ih =>
    have inside : s.current.kind ≠ .endOfInput := by
      rw [opens]
      decide
    have rest := ih ended fresh (kept ++ [s.current])
    have closing := move_close (inner.ended ended) (kept ++ [s.current] ++ body.node.tokens)
    have all := rest.tail closing
    simp only [List.append_assoc] at all
    exact .head (.read (State.ahead_eq_cons ended inside)) all
  | literal kind => exact .single (.read (State.ahead_eq_cons ended kind.ne_endOfInput))
  | missing => exact .single (.lackOperand fresh)
  | @join _ _ _ left right first above _ _ ihl ihr =>
    have ends := first.ended ended
    have moves := moves_operator fresh (ihl ended fresh kept) ends above (ihr ends)
    rwa [List.append_assoc] at moves
  | @drop room _ _ left right first above _ _ ihl ihr =>
    have ends := first.ended ended
    have moves := moves_operator fresh (ihl ended fresh kept) ends above (ihr ends)
    exact moves.tail (.drop (maxNesting - room))
  | stop _ _ ih => exact ih ended fresh kept

theorem State.abandoned_abandon (s : State) (span : Span) (depth : Nat) :
    (s.abandon span depth).abandoned ≠ none := by
  cases given : s.abandoned with
  | none => simp [abandon, given]
  | some place => simp [abandon, given]

/-- The tree has tokens of the text from the first one on, and those that it does not have are not
read, as long as the text is not given up. -/
structure Progress.Traces (lexed : Lexed) (a : Progress) : Prop where
  endOfInput : a.state.endOfInput = lexed.endOfInput
  isPrefix : Token.written a.kept <+: lexed.tokens
  whole : a.state.abandoned = none → Token.written a.kept ++ a.state.ahead = lexed.tokens
  settled : a.state.Settled

namespace Progress.Traces

variable {lexed : Lexed} {kept : List Token} {s : State}

theorem invent (traces : Traces lexed ⟨kept, s⟩) (kind : Token.Kind) (place : Nat) :
    Traces lexed ⟨kept ++ [.invented kind place], s⟩ := by
  have same := Token.written_append_invented kept kind place
  exact
    { endOfInput := traces.endOfInput
      isPrefix := same ▸ traces.isPrefix
      whole := same ▸ traces.whole
      settled := traces.settled }

theorem report (traces : Traces lexed ⟨kept, s⟩) (span : Span) (problem : Problem) :
    Traces lexed ⟨kept, s.report span problem⟩ :=
  ⟨traces.endOfInput, traces.isPrefix, traces.whole, traces.settled⟩

theorem abandon {left : List Token} (traces : Traces lexed ⟨kept, s⟩) (part : left <+: kept)
    (span : Span) (depth : Nat) : Traces lexed ⟨left, s.abandon span depth⟩ where
  endOfInput := (s.endOfInput_abandon span depth).trans traces.endOfInput
  isPrefix := (part.filter _).trans traces.isPrefix
  whole fresh := absurd fresh (s.abandoned_abandon span depth)
  settled _ := s.ahead_abandon span depth

theorem getElem?_all (traces : Traces lexed ⟨kept, s⟩) (fresh : s.abandoned = none) :
    lexed.all[(Token.written kept).length]? = some s.current := by
  have whole : Token.written kept ++ s.ahead = lexed.tokens := traces.whole fresh
  have ends : s.endOfInput = lexed.endOfInput := traces.endOfInput
  rw [Lexed.all, ← whole, List.append_assoc, List.getElem?_append_right (Nat.le_refl _),
    Nat.sub_self, ← ends]
  cases ahead : s.ahead with
  | nil => simp [State.current, ahead]
  | cons token rest => simp [State.current, ahead]

theorem current_mem (traces : Traces lexed ⟨kept, s⟩)
    (inside : s.ahead = s.current :: s.advance.ahead) : s.current ∈ lexed.tokens := by
  have whole : Token.written kept ++ s.ahead = lexed.tokens :=
    traces.whole (traces.settled.fresh inside)
  rw [← whole, inside]
  simp

end Progress.Traces

theorem Move.traces {lexed : Lexed} (real : ∀ token ∈ lexed.tokens, ¬ token.IsInvented)
    {a b : Progress} (move : Move a b) (traces : a.Traces lexed) : b.Traces lexed := by
  cases move with
  | @read kept s inside =>
    have fresh : s.abandoned = none := traces.settled.fresh inside
    have whole : Token.written kept ++ s.ahead = lexed.tokens := traces.whole fresh
    have member := traces.current_mem inside
    have extended : Token.written (kept ++ [s.current]) ++ s.advance.ahead = lexed.tokens := by
      rw [Token.written_append_of_not (real _ member), List.append_assoc, ← whole, inside]
      rfl
    exact ⟨traces.endOfInput, ⟨_, extended⟩, fun _ => extended, State.settled_of_fresh fresh⟩
  | lackOperand => exact (traces.invent _ _).report _ _
  | lackClosing => exact (traces.invent _ _).report _ _
  | closeAbandoned => exact traces.invent _ _
  | exhaust => exact (traces.invent _ _).abandon (List.prefix_refl _) _ _
  | drop => exact traces.abandon (List.prefix_append _ _) _ _

theorem Progress.traces_start (lexed : Lexed) : Traces lexed ⟨[], start lexed⟩ :=
  ⟨rfl, List.nil_prefix, fun _ => rfl, State.settled_of_fresh rfl⟩

def after (lexed : Lexed) : State :=
  (expression maxNesting 0 (start lexed)).state

end Parser

namespace Tree

variable (text : String)

theorem moves_root :
    Parser.Moves ⟨[], Parser.start (.ofText text)⟩
      ⟨(ofText text).root.tokens, Parser.after (.ofText text)⟩ :=
  (Parser.reading_expression maxNesting 0 _).moves rfl rfl []

theorem traces_root :
    Parser.Progress.Traces (.ofText text)
      ⟨(ofText text).root.tokens, Parser.after (.ofText text)⟩ :=
  (moves_root text).preserves (Parser.Move.traces fun _ => Lexed.not_isInvented)
    (Parser.Progress.traces_start _)

end Tree

end Reckon
