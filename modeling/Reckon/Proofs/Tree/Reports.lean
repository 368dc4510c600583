import Reckon.Proofs.Tree.Abandonment
import Reckon.Proofs.Tree.Spans

/-!
Where parsing reports. Every report is at a token of the text, or at the end of it, because an
operator that is dropped was read from the text as well. No token is put back, so that the reports
come in the order of their places; only the one about nesting may go back, to such an operator.
-/

set_option autoImplicit false
set_option relaxedAutoImplicit false

namespace Reckon

def Diagnostic.IsAt (d : Diagnostic) (row : List Token) : Prop :=
  d.severity = .error ∧ ∃ token ∈ row, d.span = token.span

theorem Diagnostic.IsAt.mono {d : Diagnostic} {row more : List Token} (isAt : d.IsAt row)
    (part : row.Sublist more) : d.IsAt more := by
  obtain ⟨error, token, member, place⟩ := isAt
  exact ⟨error, token, part.subset member, place⟩

/-- A row of reports in the order of their places; that the text was given up may be reported
anywhere. -/
def Diagnostic.Ascend (row : List Diagnostic) : Prop :=
  (row.filter fun d => ¬ d.IsNesting).Pairwise fun d e => d.span.start ≤ e.span.start

namespace Parser

namespace State

variable {s : State} {d : Diagnostic}

theorem current_mem_rest (s : State) : s.current ∈ s.rest := by
  obtain ⟨more, rest⟩ := s.rest_eq_cons
  rw [rest]
  exact List.mem_cons_self

theorem rest_advance_sublist (s : State) : s.advance.rest.Sublist s.rest :=
  (List.tail_sublist s.ahead).append_right [s.endOfInput]

theorem isAt_current (s : State) (problem : Problem) :
    (Diagnostic.error s.current.span problem).IsAt s.rest :=
  ⟨rfl, s.current, s.current_mem_rest, rfl⟩

theorem mem_report_iff {span : Span} {problem : Problem} :
    d ∈ (s.report span problem).reported ↔ d ∈ s.reported ∨ d = .error span problem := by
  simp [report, Diagnostic.report]

theorem mem_reported_abandon {span : Span} {depth : Nat}
    (member : d ∈ (s.abandon span depth).reported) :
    d ∈ s.reported ∨ d = .error span .nestedTooDeeply := by
  unfold abandon at member
  split at member
  · exact .inl member
  · exact mem_report_iff.mp member

theorem mem_reported_close (member : d ∈ s.close.2.reported) :
    d ∈ s.reported ∨ d = .error s.current.span .unclosedParenthesis := by
  unfold close at member
  split at member
  · exact .inl member
  · simp only at member
    split at member
    · exact .inl member
    · exact mem_report_iff.mp member

end State

namespace Reading

variable {room tier : Nat} {s : State} {extent : Extent} {p : Parsed}

theorem rest_sublist (reading : Reading room tier s extent p) :
    p.state.rest.Sublist s.rest := by
  rw [State.rest, State.rest, reading.endOfInput_eq]
  exact reading.isSuffix_ahead.sublist.append_right [s.endOfInput]

/-- What is new among the reports is at a token that was not read before. -/
theorem reported_isAt (reading : Reading room tier s extent p) {d : Diagnostic}
    (member : d ∈ p.state.reported) : d ∈ s.reported ∨ d.IsAt s.rest := by
  induction reading with
  | exhausted tier s =>
    rcases State.mem_reported_abandon member with before | rfl
    · exact .inl before
    · exact .inr (s.isAt_current _)
  | @signed _ _ s _ _ _ ih => exact (ih member).imp_right (.mono · s.rest_advance_sublist)
  | @group _ _ s body _ inner ih =>
    rcases State.mem_reported_close member with before | rfl
    · exact (ih before).imp_right (.mono · s.rest_advance_sublist)
    · exact .inr ((body.state.isAt_current _).mono
        (inner.rest_sublist.trans s.rest_advance_sublist))
  | literal => exact .inl member
  | @missing _ _ s =>
    rcases State.mem_report_iff.mp member with before | rfl
    · exact .inl before
    · exact .inr (s.isAt_current _)
  | @join _ _ _ left _ first _ _ _ ihl ihr =>
    rcases ihr member with before | later
    · exact ihl before
    · exact .inr (later.mono (left.state.rest_advance_sublist.trans first.rest_sublist))
  | @drop _ _ _ left _ first _ _ _ ihl ihr =>
    rcases State.mem_reported_abandon member with before | rfl
    · rcases ihr before with before | later
      · exact ihl before
      · exact .inr (later.mono (left.state.rest_advance_sublist.trans first.rest_sublist))
    · exact .inr ((left.state.isAt_current _).mono first.rest_sublist)
  | stop _ _ ih => exact ih member

end Reading

structure State.Ascending (s : State) : Prop where
  ordered : Diagnostic.Ascend s.reported
  behind : ∀ d ∈ s.reported, ¬ d.IsNesting → ∀ token ∈ s.rest, d.span.start ≤ token.span.start

namespace State.Ascending

variable {s : State}

theorem ascend_append (ascending : s.Ascending) {token : Token} (member : token ∈ s.rest)
    (problem : Problem) : Diagnostic.Ascend (s.reported ++ [.error token.span problem]) := by
  have last : (List.filter (fun d : Diagnostic => ¬ d.IsNesting)
      [.error token.span problem]).Sublist [.error token.span problem] := List.filter_sublist
  rw [Diagnostic.Ascend, List.filter_append]
  refine List.pairwise_append.mpr
    ⟨ascending.ordered, (List.pairwise_singleton _ _).sublist last, ?_⟩
  intro d among e new
  obtain rfl := List.mem_singleton.mp (last.subset new)
  obtain ⟨before, others⟩ := List.mem_filter.mp among
  exact ascending.behind d before (of_decide_eq_true others) token member

theorem report (ascending : s.Ascending) (inOrder : Token.InOrder s.rest) (problem : Problem) :
    (s.report s.current.span problem).Ascending := by
  have first : ∀ token ∈ s.rest, s.current.span.start ≤ token.span.start := by
    obtain ⟨more, rest⟩ := s.rest_eq_cons
    rw [rest] at inOrder ⊢
    exact fun _ => inOrder.start_le
  refine ⟨ascending.ascend_append s.current_mem_rest problem, ?_⟩
  intro d member others token ahead
  rcases mem_report_iff.mp member with before | rfl
  · exact ascending.behind d before others token ahead
  · exact first token ahead

theorem abandon (ascending : s.Ascending) (span : Span) (depth : Nat) :
    (s.abandon span depth).Ascending := by
  have others : (s.abandon span depth).reported.filter (fun d => ¬ d.IsNesting) =
      s.reported.filter fun d => ¬ d.IsNesting := by
    cases given : s.abandoned with
    | none =>
      rw [reported_abandon given, List.filter_append]
      exact List.append_nil _
    | some _ => rw [reported_abandon_of_given (by simp [given])]
  refine ⟨?_, ?_⟩
  · rw [Diagnostic.Ascend, others]
    exact ascending.ordered
  · intro d member other token last
    have kept : d ∈ s.reported := by
      rcases mem_reported_abandon member with before | rfl
      · exact before
      · exact absurd rfl other
    rw [rest_abandon] at last
    exact ascending.behind d kept other token (List.mem_append_right _ last)

theorem ascend_finish (ascending : s.Ascending) : Diagnostic.Ascend s.finish.reported := by
  rw [reported_finish]
  cases ahead : s.ahead with
  | nil => simpa using ascending.ordered
  | cons token more =>
    have member : token ∈ s.rest := by simp [rest, ahead]
    exact ascending.ascend_append member _

end State.Ascending

theorem Move.ascending {a b : Progress} (move : Move a b)
    (inOrder : Token.InOrder (a.kept ++ a.state.rest)) (ascending : a.state.Ascending) :
    b.state.Ascending := by
  have ahead : Token.InOrder a.state.rest := (List.pairwise_append.mp inOrder).2.1
  cases move with
  | @read kept s inside =>
    exact ⟨ascending.ordered, fun d member others token among =>
      ascending.behind d member others token (s.rest_advance_sublist.subset among)⟩
  | lackOperand => exact ascending.report ahead _
  | lackClosing => exact ascending.report ahead _
  | closeAbandoned => exact ascending
  | exhaust _ depth => exact ascending.abandon _ depth
  | drop depth => exact ascending.abandon _ depth

end Parser

namespace Tree

variable (text : String)

theorem isAt_of_mem_diagnostics {d : Diagnostic}
    (member : d ∈ (Parse.ofLexed (.ofText text)).diagnostics) : d.IsAt (Lexed.ofText text).all := by
  have reading := Parser.reading_expression maxNesting 0 (Parser.start (.ofText text))
  have found : d ∈ (Parser.after (.ofText text)).finish.reported := member
  rw [Parser.State.reported_finish] at found
  rcases List.mem_append.mp found with before | last
  · rcases reading.reported_isAt before with none | isAt
    · cases none
    · exact isAt
  · obtain ⟨token, first, rfl⟩ := Option.map_eq_some_iff.mp (Option.mem_toList.mp last)
    have inside : token ∈ (Parser.after (.ofText text)).rest :=
      List.mem_append_left _ (List.mem_of_head? first)
    exact ⟨rfl, token, reading.rest_sublist.subset inside, rfl⟩

theorem ascend_diagnostics : Diagnostic.Ascend (Parse.ofLexed (.ofText text)).diagnostics := by
  have step {a b : Parser.Progress} (move : Parser.Move a b)
      (holds : Token.InOrder (a.kept ++ a.state.rest) ∧ a.state.Ascending) :
      Token.InOrder (b.kept ++ b.state.rest) ∧ b.state.Ascending :=
    ⟨move.inOrder holds.1, move.ascending holds.1 holds.2⟩
  have start : (Parser.start (.ofText text)).Ascending := ⟨.nil, fun d member => nomatch member⟩
  have holds := (moves_root text).preserves step ⟨Lexed.pairwise_all text, start⟩
  exact holds.2.ascend_finish

end Tree

end Reckon
