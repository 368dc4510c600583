import Reckon.Proofs.Node.Acceptance

/-!
Expressions in many parentheses. Opening parentheses are all read before the expression inside, and
each of them takes one level of room. Behind the expression they are closed one after another, as
long as there are closing ones; from then on each is reported, at the end of the text, and closed
by an invented one.
-/

set_option autoImplicit false
set_option relaxedAutoImplicit false

namespace Reckon

/-- A node in pairs of parentheses. The opening ones are given from the outside, and the closing
ones are numbered from the inside. -/
def Node.parenthesize (node : Node) (closing : Nat → Token) : List Token → Node
  | [] => node
  | opening :: more => .group opening (node.parenthesize closing more) (closing more.length)

namespace Parser

namespace State

def closed (s : State) : Nat → State
  | 0 => s
  | n + 1 => (s.closed n).close.2

theorem close_of_cons {s : State} {token : Token} {rest : List Token}
    (ahead : s.ahead = token :: rest) (kind : token.kind = .closeParen) :
    s.close = (token, s.leaving rest) := by
  have current : s.current = token := current_of_ahead ahead
  rw [close, current, if_pos kind, advance_of_ahead ahead]

theorem close_of_nil {s : State} (ahead : s.ahead = [])
    (ended : s.endOfInput.kind = .endOfInput) (fresh : s.abandoned = none) :
    s.close = (.invented .closeParen s.endOfInput.span.start,
      s.report s.endOfInput.span .unclosedParenthesis) := by
  have current : s.current = s.endOfInput := by
    simp only [State.current, ahead]
  have noClosing : ¬ s.endOfInput.kind = .closeParen := by
    rw [ended]
    decide
  rw [close, current, if_neg noClosing, fresh]
  rfl

/-- Where parsing stands after so many parentheses, if only closing ones are left: they were read as
long as there were any, and then the missing ones were reported. -/
def behind (s : State) (n : Nat) : State :=
  { s with
    ahead := s.ahead.drop n
    reported := s.reported ++
      List.replicate (n - s.ahead.length) (.error s.endOfInput.span .unclosedParenthesis) }

theorem infixTier_current {s : State} (closes : ∀ token ∈ s.ahead, token.kind = .closeParen)
    (ended : s.endOfInput.kind = .endOfInput) : s.current.kind.infixTier = 0 := by
  cases ahead : s.ahead with
  | nil =>
    simp only [current, ahead, ended]
    rfl
  | cons token rest =>
    have kind := closes token (by simp [ahead])
    simp only [current, ahead, kind]
    rfl

section

variable {s : State} (closes : ∀ token ∈ s.ahead, token.kind = .closeParen)
  (ended : s.endOfInput.kind = .endOfInput) (fresh : s.abandoned = none)

include closes ended fresh

theorem close_behind (n : Nat) :
    (s.behind n).close =
      (s.ahead.getD n (.invented .closeParen s.endOfInput.span.start), s.behind (n + 1)) := by
  by_cases more : n < s.ahead.length
  · have split : (s.behind n).ahead = s.ahead[n] :: s.ahead.drop (n + 1) :=
      List.drop_eq_getElem_cons more
    have same : n - s.ahead.length = n + 1 - s.ahead.length := by omega
    rw [close_of_cons split (closes _ (List.getElem_mem more)), List.getD_eq_getElem?_getD,
      List.getElem?_eq_getElem more, Option.getD_some]
    simp only [behind, leaving, same]
  · have nothing : (s.behind n).ahead = [] := List.drop_eq_nil_of_le (by omega)
    have later : s.ahead.drop n = s.ahead.drop (n + 1) := by
      rw [List.drop_eq_nil_of_le (by omega), List.drop_eq_nil_of_le (by omega)]
    have one : n + 1 - s.ahead.length = n - s.ahead.length + 1 := by omega
    rw [close_of_nil nothing ended fresh, List.getD_eq_getElem?_getD,
      List.getElem?_eq_none (by omega), Option.getD_none]
    simp only [behind, report, Diagnostic.report, later, one, List.replicate_succ',
      List.append_assoc]

theorem closed_eq_behind (n : Nat) : s.closed n = s.behind n := by
  induction n with
  | zero => simp [closed, behind]
  | succ n ih => rw [closed, ih, close_behind closes ended fresh]

end

end State

theorem expression_group {room tier : Nat} {s : State} {body : Parsed}
    (opens : s.current.kind = .openParen) (inner : expression room 0 s.advance = body)
    (stops : body.state.close.2.current.kind.infixTier ≤ tier) :
    expression (room + 1) tier s =
      ⟨.group s.current body.node body.state.close.1, body.height + 1, body.state.close.2⟩ := by
  have noSign : ¬ s.current.kind.signTier ≠ 0 := by
    rw [opens]
    decide
  have read : operand (expression room) s =
      ⟨.group s.current body.node body.state.close.1, body.height + 1, body.state.close.2⟩ := by
    rw [operand, if_neg noSign, if_pos opens, group, inner]
  rw [expression, read, fold_eq_self stops]

theorem expression_parenthesize {room : Nat} {openings rest : List Token} {body : Parsed}
    (stops : ∀ n, (body.state.closed n).current.kind.infixTier = 0) {s : State}
    (opens : ∀ token ∈ openings, token.kind = .openParen) (ahead : s.ahead = openings ++ rest)
    (inner : expression room 0 (s.leaving rest) = body) :
    expression (room + openings.length) 0 s =
      ⟨body.node.parenthesize (fun n => (body.state.closed n).close.1) openings,
        body.height + openings.length, body.state.closed openings.length⟩ := by
  induction openings generalizing s with
  | nil =>
    have same : s.leaving rest = s := by
      rw [State.leaving, ← List.nil_append rest, ← ahead]
    rw [same] at inner
    exact inner
  | cons opening more ih =>
    obtain ⟨kind, later⟩ := List.forall_mem_cons.mp opens
    have current : s.current = opening := State.current_of_ahead ahead
    have advance : s.advance = s.leaving (more ++ rest) := State.advance_of_ahead ahead
    have body := ih later (s := s.leaving (more ++ rest)) rfl inner
    rw [← advance] at body
    have group := expression_group (current ▸ kind) body (Nat.le_of_eq (stops (more.length + 1)))
    rw [current] at group
    exact group

theorem expression_parenthesize_of_closings {room height : Nat} {openings rest : List Token}
    {node : Node} {s t : State} (closes : ∀ token ∈ t.ahead, token.kind = .closeParen)
    (ended : t.endOfInput.kind = .endOfInput) (fresh : t.abandoned = none)
    (opens : ∀ token ∈ openings, token.kind = .openParen) (ahead : s.ahead = openings ++ rest)
    (inner : expression room 0 (s.leaving rest) = ⟨node, height, t⟩) :
    expression (room + openings.length) 0 s =
      ⟨node.parenthesize
          (fun n => t.ahead.getD n (.invented .closeParen t.endOfInput.span.start)) openings,
        height + openings.length, t.behind openings.length⟩ := by
  have behind (n : Nat) : t.closed n = t.behind n := State.closed_eq_behind closes ended fresh n
  have stops (n : Nat) : (t.closed n).current.kind.infixTier = 0 := by
    rw [behind]
    exact State.infixTier_current
      (fun token member => closes token (List.mem_of_mem_drop member)) ended
  have closing (n : Nat) : (t.closed n).close.1 =
      t.ahead.getD n (.invented .closeParen t.endOfInput.span.start) := by
    rw [behind, State.close_behind closes ended fresh]
  have parsed := expression_parenthesize stops opens ahead inner
  simp only [closing] at parsed
  rw [parsed, behind]

end Parser

/-- The tokens of a canonical tree in parentheses, some of which may not be closed, are parsed to
the tree in as many parentheses. Those that are not closed are reported, and nothing else is. -/
theorem Parse.ofLexed_parenthesize {lexed : Lexed} {node : Node} {openings closings : List Token}
    (ended : lexed.endOfInput.kind = .endOfInput) (canonical : node.Canonical)
    (folds : node.FoldsWithin maxNesting) (room : openings.length + node.rank ≤ maxNesting)
    (opens : ∀ token ∈ openings, token.kind = .openParen)
    (closes : ∀ token ∈ closings, token.kind = .closeParen)
    (fewer : closings.length ≤ openings.length)
    (tokens : lexed.tokens = openings ++ (node.tokens ++ closings)) :
    ofLexed lexed =
      ⟨node.parenthesize
          (fun n => closings.getD n (.invented .closeParen lexed.endOfInput.span.start)) openings,
        List.replicate (openings.length - closings.length)
          (.error lexed.endOfInput.span .unclosedParenthesis), none⟩ := by
  have below : ((Parser.start lexed).leaving closings).current.kind.infixTier = 0 :=
    Parser.State.infixTier_current closes ended
  have inner : Parser.expression (maxNesting - openings.length) 0
      ((Parser.start lexed).leaving (node.tokens ++ closings)) =
        ⟨node, node.height, (Parser.start lexed).leaving closings⟩ :=
    Parser.expression_of_canonical canonical (by omega) folds canonical.tier_pos rfl
      (Nat.le_of_eq below)
  have parsed := Parser.expression_parenthesize_of_closings closes ended rfl opens tokens inner
  rw [Nat.sub_add_cancel (by omega)] at parsed
  have done : closings.drop openings.length = [] := List.drop_eq_nil_of_le fewer
  simp only [ofLexed, parsed, Parser.State.behind, Parser.State.leaving, done, Parser.State.finish]
  rfl

end Reckon
