import Reckon.Proofs.Node.Reading

/-!
Parsing accepts exactly the grammar, within its two limits of nesting. A parse without a report
has read a canonical tree, token for token; and a canonical tree is read back from its tokens,
whatever may follow them that binds no tighter. Hence a text has at most one canonical tree.
-/

set_option autoImplicit false
set_option relaxedAutoImplicit false

namespace Reckon

namespace Token.Kind

theorem IsSign.signTier_eq {kind : Token.Kind} (sign : kind.IsSign) : kind.signTier = 6 := by
  rcases sign with rfl | rfl | rfl <;> rfl

theorem IsLiteral.signTier_eq {kind : Token.Kind} (literal : kind.IsLiteral) :
    kind.signTier = 0 := by
  rcases literal with rfl | rfl | rfl <;> rfl

theorem IsLiteral.ne_openParen {kind : Token.Kind} (literal : kind.IsLiteral) :
    kind ≠ .openParen := by
  rcases literal with rfl | rfl | rfl <;> decide

theorem IsLiteral.ne_endOfInput {kind : Token.Kind} (literal : kind.IsLiteral) :
    kind ≠ .endOfInput := by
  rcases literal with rfl | rfl | rfl <;> decide

end Token.Kind

theorem Diagnostic.eq_of_prefix_of_prefix {before between after : List Diagnostic}
    (first : before <+: between) (second : between <+: after) (same : after = before) :
    between = before := by
  subst same
  exact (first.eq_of_length_le second.length_le).symm

namespace Parser

namespace State

theorem reported_abandon {s : State} (fresh : s.abandoned = none) (span : Span) (depth : Nat) :
    (s.abandon span depth).reported = s.reported ++ [.error span .nestedTooDeeply] := by
  simp only [abandon, fresh]
  rfl

def leaving (s : State) (rest : List Token) : State :=
  { s with ahead := rest }

theorem current_of_ahead {s : State} {token : Token} {rest : List Token}
    (ahead : s.ahead = token :: rest) : s.current = token := by
  simp only [current, ahead]

theorem advance_of_ahead {s : State} {token : Token} {rest : List Token}
    (ahead : s.ahead = token :: rest) : s.advance = s.leaving rest := by
  simp only [advance, leaving, ahead, List.tail_cons]

theorem close_of_reported_eq {s : State} (fresh : s.abandoned = none)
    (clean : s.close.2.reported = s.reported) :
    s.current.kind = .closeParen ∧ s.close = (s.current, s.advance) := by
  by_cases closes : s.current.kind = .closeParen
  · exact ⟨closes, if_pos closes⟩
  · simp [close, closes, fresh, report, Diagnostic.report] at clean

theorem of_reported_finish_eq_nil {s : State} (nothing : s.finish.reported = []) :
    s.ahead = [] ∧ s.reported = [] := by
  cases ahead : s.ahead with
  | nil =>
    refine ⟨rfl, ?_⟩
    simpa only [finish, ahead] using nothing
  | cons token rest =>
    simp [finish, ahead, report, Diagnostic.report] at nothing

end State

/-- How tightly the operator after an expression may bind: no tighter than the tier that the
expression was read at, or, before its infix operators are all read, than the last of these. -/
def Extent.limit (tier : Nat) (node : Node) : Extent → Nat
  | .begun => node.tier
  | .whole => tier

structure Accepted (room tier : Nat) (s : State) (extent : Extent) (p : Parsed) : Prop where
  tokens : s.ahead = p.node.tokens ++ p.state.ahead
  fresh : p.state.abandoned = none
  canonical : p.node.Canonical
  rank : p.node.rank ≤ room
  above : tier < p.node.tier
  next : p.state.current.kind.infixTier ≤ extent.limit tier p.node

theorem Reading.accepted {room tier : Nat} {s : State} {extent : Extent} {p : Parsed}
    (reading : Reading room tier s extent p) (bounded : tier < 7)
    (ended : s.endOfInput.kind = .endOfInput) (fresh : s.abandoned = none)
    (clean : p.state.reported = s.reported) : Accepted room tier s extent p := by
  induction reading with
  | exhausted tier s =>
    simp [State.reported_abandon fresh] at clean
  | @signed room tier s operand sign inner ih =>
    have body := ih s.current.kind.signTier_lt_seven ended fresh clean
    have inside := Token.Kind.ne_endOfInput_of_signTier sign
    refine
      { tokens := ?_
        fresh := body.fresh
        canonical := .unary ((Token.Kind.isSign_iff _).mpr sign) body.above body.canonical
        rank := Nat.succ_le_succ body.rank
        above := bounded
        next := Nat.le_of_lt (Token.Kind.infixTier_lt_seven _) }
    rw [State.ahead_eq_cons ended inside, body.tokens]
    rfl
  | @group room tier s body opens inner ih =>
    have unchanged : body.state.reported = s.reported :=
      Diagnostic.eq_of_prefix_of_prefix inner.isPrefix_reported
        body.state.isPrefix_reported_close clean
    have accepted := ih (by decide) ended fresh unchanged
    obtain ⟨closes, closing⟩ :=
      State.close_of_reported_eq accepted.fresh (clean.trans unchanged.symm)
    have inside : s.current.kind ≠ .endOfInput := by
      rw [opens]
      decide
    have endsLater := inner.ended ended
    have insideLater : body.state.current.kind ≠ .endOfInput := by
      rw [closes]
      decide
    rw [closing]
    refine
      { tokens := ?_
        fresh := accepted.fresh
        canonical := .group opens closes accepted.canonical
        rank := Nat.succ_le_succ accepted.rank
        above := bounded
        next := Nat.le_of_lt (Token.Kind.infixTier_lt_seven _) }
    rw [State.ahead_eq_cons ended inside, accepted.tokens,
      State.ahead_eq_cons endsLater insideLater]
    simp [Node.tokens]
  | @literal room tier s kind =>
    exact
      { tokens := State.ahead_eq_cons ended kind.ne_endOfInput
        fresh := fresh
        canonical := .literal kind
        rank := Nat.succ_le_succ (Nat.zero_le room)
        above := bounded
        next := Nat.le_of_lt (Token.Kind.infixTier_lt_seven _) }
  | missing =>
    simp [State.report, Diagnostic.report] at clean
  | @join room tier s left right first above second low ihl ihr =>
    have unchanged : left.state.reported = s.reported :=
      Diagnostic.eq_of_prefix_of_prefix first.isPrefix_reported second.isPrefix_reported clean
    have start := ihl bounded ended fresh unchanged
    have endsLater := first.ended ended
    have tight := left.state.current.kind.infixTier_lt_seven
    have rest := ihr tight endsLater start.fresh (clean.trans unchanged.symm)
    have symbol : left.state.current.kind.infixTier ≠ 0 := Nat.ne_of_gt (Nat.zero_lt_of_lt above)
    have inside := Token.Kind.ne_endOfInput_of_lt_infixTier above
    refine
      { tokens := ?_
        fresh := rest.fresh
        canonical := .binary symbol start.next rest.above start.canonical rest.canonical
        rank := Nat.max_le.mpr ⟨start.rank, Nat.succ_le_succ rest.rank⟩
        above := above
        next := rest.next }
    rw [start.tokens, State.ahead_eq_cons endsLater inside, rest.tokens]
    simp [Node.tokens]
  | @drop room tier s left right first above second high ihl ihr =>
    have kept : right.state.reported = s.reported :=
      Diagnostic.eq_of_prefix_of_prefix (first.isPrefix_reported.trans second.isPrefix_reported)
        (State.isPrefix_reported_abandon _ _ _) clean
    have unchanged : left.state.reported = s.reported :=
      Diagnostic.eq_of_prefix_of_prefix first.isPrefix_reported second.isPrefix_reported kept
    have start := ihl bounded ended fresh unchanged
    have endsLater := first.ended ended
    have tight := left.state.current.kind.infixTier_lt_seven
    have rest := ihr tight endsLater start.fresh (kept.trans unchanged.symm)
    simp [State.reported_abandon rest.fresh, kept] at clean
  | stop first below ih =>
    have start := ih bounded ended fresh clean
    have next := State.infixTier_current_le (first.ended ended) below
    exact { start with next }

theorem fold_eq_self {inner : Nat → State → Parsed} {depth tier : Nat} {left : Parsed}
    (below : left.state.current.kind.infixTier ≤ tier) (rounds : Nat) :
    fold inner depth tier rounds left = left := by
  cases rounds with
  | zero => rfl
  | succ rounds =>
    unfold fold
    simp only [below, ↓reduceIte]

private theorem fold_succ {inner : Nat → State → Parsed} {depth tier : Nat} (left right : Parsed)
    (above : tier < left.state.current.kind.infixTier)
    (read : inner left.state.current.kind.infixTier left.state.advance = right)
    (low : max left.height right.height + 1 ≤ maxNesting) (rounds : Nat) :
    fold inner depth tier (rounds + 1) left =
      fold inner depth tier rounds
        ⟨.binary left.node left.state.current right.node, max left.height right.height + 1,
          right.state⟩ := by
  subst read
  rw [fold, if_neg (Nat.not_le_of_lt above), if_neg (Nat.not_lt_of_le low)]

/-- Reading from the first token of a node folds the whole node, if what follows binds no tighter
than its outermost operator. -/
private def Folded (node : Node) : Prop :=
  ∀ (room depth tier : Nat) (s : State) (rest : List Token),
    node.rank ≤ room + 1 → node.FoldsWithin maxNesting → tier < node.tier →
    s.ahead = node.tokens ++ rest → (s.leaving rest).current.kind.infixTier ≤ node.tier →
    ∃ taken, taken ≤ node.tokens.length ∧ ∀ rounds,
      fold (expression room) depth tier (rounds + taken) (operand (expression room) s) =
        fold (expression room) depth tier rounds ⟨node, node.height, s.leaving rest⟩

private theorem Folded.expression_eq {node : Node} (folded : Folded node) {room tier : Nat}
    {s : State} {rest : List Token} (fits : node.rank ≤ room)
    (folds : node.FoldsWithin maxNesting) (above : tier < node.tier)
    (tokens : s.ahead = node.tokens ++ rest)
    (below : (s.leaving rest).current.kind.infixTier ≤ tier) :
    expression room tier s = ⟨node, node.height, s.leaving rest⟩ := by
  obtain ⟨room, rfl⟩ : ∃ more, room = more + 1 :=
    Nat.exists_eq_succ_of_ne_zero (Nat.ne_of_gt (Nat.lt_of_lt_of_le node.rank_pos fits))
  obtain ⟨taken, enough, step⟩ := folded room (maxNesting - room) tier s rest fits folds above
    tokens (Nat.le_of_lt (Nat.lt_of_le_of_lt below above))
  have rounds : s.ahead.length = s.ahead.length - taken + taken := by
    rw [tokens, List.length_append]
    omega
  rw [expression, rounds, step, fold_eq_self below]

private theorem folded_of_operand_eq {node : Node}
    (read : ∀ (room : Nat) (s : State) (rest : List Token), node.rank ≤ room + 1 →
      node.FoldsWithin maxNesting → s.ahead = node.tokens ++ rest →
      operand (expression room) s = ⟨node, node.height, s.leaving rest⟩) : Folded node := by
  intro room depth tier s rest fits folds _ tokens _
  refine ⟨0, Nat.zero_le _, fun rounds => ?_⟩
  rw [read room s rest fits folds tokens, Nat.add_zero]

private theorem folded_of_canonical {node : Node} (canonical : node.Canonical) : Folded node := by
  induction canonical with
  | @literal token kind =>
    apply folded_of_operand_eq
    intro room s rest _ _ tokens
    have current : s.current = token := State.current_of_ahead tokens
    have noSign : ¬ token.kind.signTier ≠ 0 := not_not_intro kind.signTier_eq
    have spelled : token.kind = .number ∨ token.kind = .trueWord ∨ token.kind = .falseWord := kind
    rw [operand, current, if_neg noSign, if_neg kind.ne_openParen, literal, current,
      if_pos spelled, State.advance_of_ahead tokens]
    rfl
  | @unary operator operand sign tight _ ih =>
    apply folded_of_operand_eq
    intro room s rest fits folds tokens
    have current : s.current = operator := State.current_of_ahead tokens
    have advance : s.advance = s.leaving (operand.tokens ++ rest) :=
      State.advance_of_ahead tokens
    have below : (s.leaving rest).current.kind.infixTier ≤ operator.kind.signTier := by
      rw [sign.signTier_eq]
      exact Nat.le_of_lt (Token.Kind.infixTier_lt_six _)
    have inner := ih.expression_eq (s := s.leaving (operand.tokens ++ rest))
      (Nat.le_of_succ_le_succ fits) folds tight rfl below
    rw [Parser.operand, current, if_pos ((Token.Kind.isSign_iff _).mp sign), signed, current,
      advance, inner]
    rfl
  | @binary left operator right symbol leftTier rightTier _ _ ihl ihr =>
    intro room depth tier s rest fits folds above tokens below
    have split : s.ahead = left.tokens ++ operator :: (right.tokens ++ rest) := by
      simpa [Node.tokens] using tokens
    obtain ⟨taken, enough, step⟩ := ihl room depth tier s _
      (Nat.le_trans (Nat.le_max_left _ _) fits) folds.2.1 (Nat.lt_of_lt_of_le above leftTier)
      split leftTier
    have inner := ihr.expression_eq (s := s.leaving (right.tokens ++ rest))
      (Nat.le_of_succ_le_succ (Nat.le_trans (Nat.le_max_right _ _) fits)) folds.2.2 rightTier
      rfl below
    refine ⟨taken + 1, ?_, fun rounds => ?_⟩
    · simp only [Node.tokens, List.length_append, List.length_cons]
      omega
    · have regroup : rounds + (taken + 1) = rounds + 1 + taken := by omega
      rw [regroup, step]
      exact fold_succ ⟨left, left.height, s.leaving (operator :: (right.tokens ++ rest))⟩
        ⟨right, right.height, s.leaving rest⟩ above inner folds.1 rounds
  | @group opening body closing opens closes canonical ih =>
    apply folded_of_operand_eq
    intro room s rest fits folds tokens
    have split : s.ahead = opening :: (body.tokens ++ closing :: rest) := by
      simpa [Node.tokens] using tokens
    have current : s.current = opening := State.current_of_ahead split
    have noSign : ¬ opening.kind.signTier ≠ 0 := by
      rw [opens]
      decide
    have below : (s.leaving (closing :: rest)).current.kind.infixTier ≤ 0 := by
      change closing.kind.infixTier ≤ 0
      rw [closes]
      decide
    have inner := ih.expression_eq (s := s.leaving (body.tokens ++ closing :: rest))
      (Nat.le_of_succ_le_succ fits) folds canonical.tier_pos rfl below
    have close : (s.leaving (closing :: rest)).close = (closing, s.leaving rest) := if_pos closes
    rw [operand, current, if_neg noSign, if_pos opens, group, State.advance_of_ahead split, inner,
      current]
    exact congrArg
      (fun closed : Token × State =>
        (⟨.group opening body closed.1, body.height + 1, closed.2⟩ : Parsed)) close

/-- A canonical tree is read back from its tokens, if there is room and what follows binds no
tighter than the tier. -/
theorem expression_of_canonical {node : Node} (canonical : node.Canonical) {room tier : Nat}
    {s : State} {rest : List Token} (fits : node.rank ≤ room)
    (folds : node.FoldsWithin maxNesting) (above : tier < node.tier)
    (tokens : s.ahead = node.tokens ++ rest)
    (below : (s.leaving rest).current.kind.infixTier ≤ tier) :
    expression room tier s = ⟨node, node.height, s.leaving rest⟩ :=
  (folded_of_canonical canonical).expression_eq fits folds above tokens below

end Parser

namespace Parse

variable {lexed : Lexed} {node : Node}

theorem reads_root_of_clean (ended : lexed.endOfInput.kind = .endOfInput)
    (clean : (ofLexed lexed).diagnostics = []) : (ofLexed lexed).root.Reads lexed := by
  have reading := Parser.reading_expression maxNesting 0 (Parser.start lexed)
  obtain ⟨done, nothing⟩ := Parser.State.of_reported_finish_eq_nil clean
  have accepted := reading.accepted (by decide) ended rfl nothing
  have tokens := accepted.tokens
  rw [done, List.append_nil] at tokens
  exact
    { canonical := accepted.canonical
      tokens := congrArg (· ++ [lexed.endOfInput]) tokens.symm
      rank := accepted.rank
      folds := reading.foldsWithin }

theorem ofLexed_of_reads (ended : lexed.endOfInput.kind = .endOfInput)
    (reads : node.Reads lexed) : ofLexed lexed = ⟨node, [], none⟩ := by
  have tokens : lexed.tokens = node.tokens ++ [] := by
    rw [List.append_nil]
    exact (List.append_cancel_right reads.tokens).symm
  have below : ((Parser.start lexed).leaving []).current.kind.infixTier ≤ 0 := by
    change lexed.endOfInput.kind.infixTier ≤ 0
    rw [ended]
    decide
  have parsed := Parser.expression_of_canonical reads.canonical (s := Parser.start lexed)
    reads.rank reads.folds reads.canonical.tier_pos tokens below
  rw [ofLexed, parsed]
  rfl

end Parse

/-- A text is parsed without a report, beyond what was reported of its characters, if and only if
its tokens are those of a canonical tree within both limits of nesting; and such a tree is the
one that the text is parsed to. -/
theorem Tree.clean_iff_reads_and_unique (text : String) :
    ((Tree.ofText text).diagnostics = (Lexed.ofText text).diagnostics ↔
      ∃ node : Node, node.Reads (.ofText text)) ∧
    ∀ node : Node, node.Reads (.ofText text) → node = (Tree.ofText text).root := by
  have ended : (Lexed.ofText text).endOfInput.kind = .endOfInput := rfl
  have clean_iff : (Tree.ofText text).diagnostics = (Lexed.ofText text).diagnostics ↔
      (Parse.ofLexed (.ofText text)).diagnostics = [] := List.append_right_eq_self
  refine ⟨⟨?_, ?_⟩, ?_⟩
  · intro clean
    exact ⟨_, Parse.reads_root_of_clean ended (clean_iff.mp clean)⟩
  · rintro ⟨node, reads⟩
    rw [clean_iff, Parse.ofLexed_of_reads ended reads]
  · intro node reads
    exact (congrArg Parse.root (Parse.ofLexed_of_reads ended reads)).symm

end Reckon
