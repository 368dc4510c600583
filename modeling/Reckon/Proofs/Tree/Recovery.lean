import Mathlib.Data.List.Forall2
import Reckon.Proofs.Tree.Abandonment

/-!
How parsing recovers. As long as a text is not given up, there is one report for every token that
had to be invented, in the order of these tokens in the tree, and none for anything else but the
first token behind the expression.
-/

set_option autoImplicit false
set_option relaxedAutoImplicit false

namespace Reckon

/-- A place in a text where a token was invented: the token, and how many tokens of the text the
tree has before it. -/
structure Gap where
  token : Token
  before : Nat
  deriving DecidableEq

/-- The gaps in a row of tokens that stands behind so many tokens of the text. -/
def Token.gaps (before : Nat) : List Token → List Gap
  | [] => []
  | token :: row =>
    if token.IsInvented then ⟨token, before⟩ :: gaps before row else gaps (before + 1) row

/-- What is reported of a gap, at the first token of the text that was not read there: the invented
token stands where that one starts, and the report takes all of its span. -/
def Gap.Reported (lexed : Lexed) (gap : Gap) (d : Diagnostic) : Prop :=
  ∃ found, lexed.all[gap.before]? = some found ∧
    ((gap.token = .invented .number found.span.start ∧
        d = .error found.span (.unexpectedToken found.kind .number)) ∨
      (gap.token = .invented .closeParen found.span.start ∧
        d = .error found.span .unclosedParenthesis))

namespace Token

theorem map_token_gaps (before : Nat) (row : List Token) :
    (gaps before row).map Gap.token = row.filter fun token => token.IsInvented := by
  induction row generalizing before with
  | nil => rfl
  | cons token row ih =>
    by_cases invented : token.IsInvented
    · simp [gaps, invented, ih]
    · simp [gaps, invented, ih]

theorem gaps_append (before : Nat) (row more : List Token) :
    gaps before (row ++ more) = gaps before row ++ gaps (before + (written row).length) more := by
  induction row generalizing before with
  | nil => rfl
  | cons token row ih =>
    by_cases invented : token.IsInvented
    · simp [gaps, written, invented, ih]
    · simp [gaps, written, invented, ih, Nat.add_assoc, Nat.add_comm]

theorem gaps_append_invented (row : List Token) (kind : Kind) (start : Nat) :
    gaps 0 (row ++ [.invented kind start]) =
      gaps 0 row ++ [⟨.invented kind start, (written row).length⟩] := by
  rw [gaps_append, gaps, if_pos (isInvented_invented kind start), Nat.zero_add]
  rfl

theorem gaps_append_of_not {token : Token} (real : ¬ token.IsInvented) (row : List Token) :
    gaps 0 (row ++ [token]) = gaps 0 row := by
  rw [gaps_append, gaps, if_neg real]
  exact List.append_nil _

end Token

namespace Parser

structure Progress.Accounts (lexed : Lexed) (a : Progress) : Prop where
  traces : a.Traces lexed
  reported : a.state.abandoned = none →
    List.Forall₂ (Gap.Reported lexed) (Token.gaps 0 a.kept) a.state.reported

theorem Progress.Accounts.report {lexed : Lexed} {kept : List Token} {s : State}
    (accounts : Accounts lexed ⟨kept, s⟩) (fresh : s.abandoned = none) {kind : Token.Kind}
    {problem : Problem}
    (matching : (kind = .number ∧ problem = .unexpectedToken s.current.kind .number) ∨
      (kind = .closeParen ∧ problem = .unclosedParenthesis)) :
    Accounts lexed
      ⟨kept ++ [.invented kind s.current.span.start], s.report s.current.span problem⟩ := by
  refine ⟨(accounts.traces.invent _ _).report _ _, fun _ => ?_⟩
  rw [Token.gaps_append_invented]
  refine List.rel_append (accounts.reported fresh) (.cons ?_ .nil)
  refine ⟨s.current, accounts.traces.getElem?_all fresh, ?_⟩
  rcases matching with ⟨rfl, rfl⟩ | ⟨rfl, rfl⟩
  · exact .inl ⟨rfl, rfl⟩
  · exact .inr ⟨rfl, rfl⟩

theorem Move.accounts {lexed : Lexed} (real : ∀ token ∈ lexed.tokens, ¬ token.IsInvented)
    {a b : Progress} (move : Move a b) (accounts : a.Accounts lexed) : b.Accounts lexed := by
  have traces := move.traces real accounts.traces
  cases move with
  | read inside =>
    refine ⟨traces, fun fresh => ?_⟩
    rw [Token.gaps_append_of_not (real _ (accounts.traces.current_mem inside))]
    exact accounts.reported fresh
  | lackOperand fresh => exact accounts.report fresh (.inl ⟨rfl, rfl⟩)
  | lackClosing fresh => exact accounts.report fresh (.inr ⟨rfl, rfl⟩)
  | closeAbandoned given => exact ⟨traces, fun fresh => absurd fresh given⟩
  | exhaust => exact ⟨traces, fun fresh => absurd fresh (State.abandoned_abandon _ _ _)⟩
  | drop => exact ⟨traces, fun fresh => absurd fresh (State.abandoned_abandon _ _ _)⟩

end Parser

namespace Tree

theorem accounts_root (text : String) :
    Parser.Progress.Accounts (.ofText text)
      ⟨(ofText text).root.tokens, Parser.after (.ofText text)⟩ := by
  refine (moves_root text).preserves (Parser.Move.accounts fun _ => Lexed.not_isInvented) ?_
  exact ⟨Parser.Progress.traces_start _, fun _ => .nil⟩

/-- In a text that is not given up, the reports of parsing are one for each invented token of the
tree, from left to right, and then one for the first token that is left behind the tree, if there
is any. -/
theorem gaps_reported (text : String)
    (shallow : ∀ d ∈ (ofText text).diagnostics, ¬ d.IsNesting) :
    (Token.gaps 0 (ofText text).root.tokens).map Gap.token =
      (ofText text).root.tokens.filter (fun token => token.IsInvented) ∧
    ∃ (reports : List Diagnostic) (behind : List Token),
      List.Forall₂ (Gap.Reported (.ofText text)) (Token.gaps 0 (ofText text).root.tokens)
        reports ∧
      (Lexed.ofText text).tokens = Token.written (ofText text).root.tokens ++ behind ∧
      (ofText text).diagnostics = (Lexed.ofText text).diagnostics ++ reports ++
        (behind.head?.map fun token =>
          .error token.span (.unexpectedToken token.kind .endOfInput)).toList := by
  have accounts := accounts_root text
  have fresh : (Parser.after (.ofText text)).abandoned = none := by
    rcases nesting_cases text with ⟨fresh, -⟩ | ⟨-, earlier, last, reported, nesting, -⟩
    · rwa [Parser.State.abandoned_finish] at fresh
    · exact absurd nesting (shallow last (by simp [reported]))
  refine ⟨Token.map_token_gaps _ _, _, _, accounts.reported fresh,
    (accounts.traces.whole fresh).symm, ?_⟩
  rw [diagnostics_eq, Parser.State.reported_finish, List.append_assoc]

theorem gaps_reported_unclosed :
    (∀ d ∈ (ofText "(1 + ) * (3 4").diagnostics, ¬ d.IsNesting) ∧
    Token.gaps 0 (ofText "(1 + ) * (3 4").root.tokens =
      [⟨.invented .number 5, 3⟩, ⟨.invented .closeParen 12, 7⟩] ∧
    ∃ (reports : List Diagnostic) (behind : List Token),
      List.Forall₂ (Gap.Reported (.ofText "(1 + ) * (3 4"))
        [⟨.invented .number 5, 3⟩, ⟨.invented .closeParen 12, 7⟩] reports ∧
      (Lexed.ofText "(1 + ) * (3 4").tokens =
        Token.written (ofText "(1 + ) * (3 4").root.tokens ++ behind ∧
      (ofText "(1 + ) * (3 4").diagnostics = reports ++
        (behind.head?.map fun token =>
          .error token.span (.unexpectedToken token.kind .endOfInput)).toList := by
  have shallow : ∀ d ∈ (ofText "(1 + ) * (3 4").diagnostics, ¬ d.IsNesting := by
    decide +kernel
  have gaps : Token.gaps 0 (ofText "(1 + ) * (3 4").root.tokens =
      [⟨.invented .number 5, 3⟩, ⟨.invented .closeParen 12, 7⟩] := by
    decide +kernel
  have lexed : (Lexed.ofText "(1 + ) * (3 4").diagnostics = [] := by
    decide +kernel
  obtain ⟨-, reports, behind, reported, tokens, diagnostics⟩ := gaps_reported _ shallow
  rw [gaps] at reported
  rw [lexed] at diagnostics
  exact ⟨shallow, gaps, reports, behind, reported, tokens, diagnostics⟩

end Tree

end Reckon
