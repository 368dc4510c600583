import Mathlib.Data.List.Perm.Subperm
import Reckon.Analysis
import Reckon.Proofs.Tree.Reports
import Reckon.Proofs.Typed.Complaints

/-!
Places of all that is wrong with a text. Every report is an error at bytes of the text that start
and end between characters: at a stray character, at a token, or at the end. An operator without a
row is reported where it is written, and no operator is in the tree twice, so that no two of these
reports are at one place.
-/

set_option autoImplicit false
set_option relaxedAutoImplicit false

namespace Reckon

def Problem.operator? : Problem → Option String
  | .undefinedUnary operator _ => some operator
  | .undefinedBinary operator _ _ => some operator
  | _ => none

namespace Node

def operator? : Node → Option Token
  | .unary operator _ => some operator
  | .binary _ operator _ => some operator
  | .literal _ _ | .group _ _ _ => none

/-- The operators of an expression, operands before their operator and from left to right. -/
def operators (node : Node) : List Token :=
  node.operatorNodes.filterMap operator?

theorem operators_unary (operator : Token) (operand : Node) :
    (unary operator operand).operators = operand.operators ++ [operator] := by
  simp [operators, operatorNodes, operator?]

theorem operators_binary (left : Node) (operator : Token) (right : Node) :
    (binary left operator right).operators = left.operators ++ right.operators ++ [operator] := by
  simp [operators, operatorNodes, operator?]

theorem subperm_operators (node : Node) : node.operators.Subperm node.tokens := by
  induction node with
  | literal token value => exact List.nil_subperm
  | unary operator operand ih =>
    rw [operators_unary]
    exact (ih.append (.refl [operator])).trans List.perm_append_comm.subperm
  | binary left operator right ihl ihr =>
    rw [operators_binary]
    have grouped := (ihl.append ihr).append (.refl [operator])
    refine grouped.trans (List.Perm.subperm ?_)
    rw [List.append_assoc, tokens]
    exact List.perm_append_comm.append_left left.tokens
  | group opening inner closing ih =>
    have part : inner.tokens.Sublist (group opening inner closing).tokens :=
      (List.sublist_append_left inner.tokens [closing]).cons opening
    exact ih.trans part.subperm

theorem of_complaint? {node : Node} {d : Diagnostic} (found : node.complaint? = some d) :
    ∃ operator, node.operator? = some operator ∧ d.severity = .error ∧ d.span = operator.span ∧
      d.problem.operator? = some operator.text := by
  unfold complaint? at found
  split at found
  · split at found
    · cases found
      exact ⟨_, rfl, rfl, rfl, rfl⟩
    · cases found
  · split at found
    · cases found
      exact ⟨_, rfl, rfl, rfl, rfl⟩
    · cases found
  · cases found
  · cases found

end Node

theorem Parser.Reading.mem_ahead {room tier : Nat} {s : State} {extent : Extent} {p : Parsed}
    (reading : Reading room tier s extent p) (ended : s.endOfInput.kind = .endOfInput)
    {operator : Token} (member : operator ∈ p.node.operators) : operator ∈ s.ahead := by
  induction reading with
  | exhausted => cases member
  | @signed _ _ s _ sign _ ih =>
    have inside := State.ahead_eq_cons ended (Token.Kind.ne_endOfInput_of_signTier sign)
    rw [Node.operators_unary] at member
    rw [inside]
    rcases List.mem_append.mp member with within | last
    · exact List.mem_cons_of_mem _ (ih ended within)
    · exact List.mem_cons.mpr (.inl (List.mem_singleton.mp last))
  | group _ _ ih => exact List.mem_of_mem_tail (ih ended member)
  | literal => cases member
  | missing => cases member
  | @join _ _ _ left _ first above _ _ ihl ihr =>
    have ends := first.ended ended
    have inside := State.ahead_eq_cons ends (Token.Kind.ne_endOfInput_of_lt_infixTier above)
    have behind : operator ∈ left.state.ahead → operator ∈ _ := fun later =>
      first.isSuffix_ahead.subset later
    rw [Node.operators_binary] at member
    rcases List.mem_append.mp member with operands | last
    · rcases List.mem_append.mp operands with front | back
      · exact ihl ended front
      · exact behind (List.mem_of_mem_tail (ihr ends back))
    · refine behind ?_
      rw [inside]
      exact List.mem_cons.mpr (.inl (List.mem_singleton.mp last))
  | drop _ _ _ _ ihl => exact ihl ended member
  | stop _ _ ih => exact ih ended member

namespace Tree

variable {text : String}

theorem mem_tokens_of_mem_operators {operator : Token}
    (member : operator ∈ (ofText text).root.operators) :
    operator ∈ (Lexed.ofText text).tokens :=
  (Parser.reading_expression maxNesting 0 (Parser.start (.ofText text))).mem_ahead rfl member

theorem nodup_span_operators (text : String) :
    ((ofText text).root.operators.map Token.span).Nodup := by
  have distinct : ((Lexed.ofText text).tokens.map Token.span).Nodup := by
    rw [List.Nodup, List.pairwise_map]
    have starts := (List.pairwise_append.mp (Lexed.pairwise_start_all text)).1
    exact starts.imp fun before same => by simp [same] at before
  have real : Token.written (ofText text).root.operators = (ofText text).root.operators := by
    refine List.filter_eq_self.mpr fun operator member => ?_
    exact decide_eq_true (Lexed.not_isInvented (mem_tokens_of_mem_operators member))
  have written :
      (ofText text).root.operators.Subperm (Token.written (ofText text).root.tokens) := by
    rw [← real]
    exact (ofText text).root.subperm_operators.filter _
  obtain ⟨row, perm, part⟩ := written.trans (traces_root text).isPrefix.sublist.subperm
  exact ((perm.map Token.span).nodup_iff).mp (distinct.sublist (part.map Token.span))

end Tree

theorem Lexed.slices_of_mem_all {text : String} {token : Token}
    (member : token ∈ (ofText text).all) : token.span.Slices text token.text := by
  rcases List.mem_append.mp member with inside | last
  · obtain ⟨before, after, splits, -⟩ := longestMatch_of_mem_tokens inside
    exact ⟨before, after, splits⟩
  · obtain rfl := List.mem_singleton.mp last
    exact ⟨text, "", by simp [ofText, Token.atEnd, Token.invented], rfl, rfl⟩

namespace Analysis

/-- All that is wrong with a text is an error at bytes of it. What lexing reports is at a stray
character or a number, and everything else is at a token or the end. What parsing reports comes in
order, and what is reported about operators is at their places, which are all different. -/
structure PointsInto (a : Analysis) (text : String) : Prop where
  parts : a.diagnostics = a.lexed.diagnostics ++ a.parse.diagnostics ++
    (Resolver.empty.resolve a.parse.root).2.reported
  inside : ∀ d ∈ a.diagnostics, d.severity = .error ∧ d.span.stop ≤ text.utf8ByteSize ∧
    ∃ part, d.span.Slices text part
  lexed : ∀ d ∈ a.lexed.diagnostics, (∃ c, a.lexed.Bad text d.span c) ∨
    ∃ token ∈ a.lexed.tokens, token.kind = .number ∧ d.span = token.span
  parsed : ∀ d ∈ a.parse.diagnostics, ∃ token ∈ a.lexed.all, d.span = token.span
  ordered : (a.parse.diagnostics.filter fun d => d.problem ≠ .nestedTooDeeply).Pairwise
    fun d e => d.span.start ≤ e.span.start
  resolved : ∀ d ∈ (Resolver.empty.resolve a.parse.root).2.reported,
    (∃ token ∈ a.lexed.all, d.span = token.span) ∧
      ∃ operator, d.problem.operator? = some operator ∧ d.span.Slices text operator
  distinct : ((Resolver.empty.resolve a.parse.root).2.reported.map Diagnostic.span).Nodup

variable {text : String}

theorem of_mem_reported {d : Diagnostic}
    (member : d ∈ (Resolver.empty.resolve (Tree.ofText text).root).2.reported) :
    ∃ operator ∈ (Lexed.ofText text).tokens, d.severity = .error ∧ d.span = operator.span ∧
      d.problem.operator? = some operator.text := by
  rw [Resolver.reported_resolve] at member
  obtain ⟨node, among, found⟩ := List.mem_filterMap.mp member
  obtain ⟨operator, symbol, error, place, named⟩ := Node.of_complaint? found
  have inside : operator ∈ (Tree.ofText text).root.operators :=
    List.mem_filterMap.mpr ⟨node, among, symbol⟩
  exact ⟨operator, Tree.mem_tokens_of_mem_operators inside, error, place, named⟩

theorem nodup_span_reported (text : String) :
    ((Resolver.empty.resolve (Tree.ofText text).root).2.reported.map Diagnostic.span).Nodup := by
  have operators := Tree.nodup_span_operators text
  rw [Node.operators, List.Nodup, List.pairwise_map, List.pairwise_filterMap] at operators
  rw [Resolver.reported_resolve, List.Nodup, List.pairwise_map]
  refine List.pairwise_filterMap.mpr (operators.imp fun apart d first e second => ?_)
  obtain ⟨s, symbol, -, place, -⟩ := Node.of_complaint? first
  obtain ⟨t, symbol', -, place', -⟩ := Node.of_complaint? second
  rw [place, place']
  exact apart s symbol t symbol'

theorem slices_of_mem_diagnostics {d : Diagnostic} (member : d ∈ (ofText text).diagnostics) :
    d.severity = .error ∧ ∃ part, d.span.Slices text part := by
  rcases List.mem_append.mp member with earlier | resolved
  · rcases List.mem_append.mp earlier with lexed | parsed
    · rcases Lexed.mem_diagnostics_iff.mp lexed with ⟨_, c, bad, rfl⟩ | ⟨token, among, -, -, rfl⟩
      · exact ⟨rfl, _, bad.slices⟩
      · exact ⟨rfl, _, Lexed.slices_of_mem_all (List.mem_append_left _ among)⟩
    · obtain ⟨error, token, among, place⟩ := Tree.isAt_of_mem_diagnostics text parsed
      rw [place]
      exact ⟨error, _, Lexed.slices_of_mem_all among⟩
  · obtain ⟨operator, among, error, place, -⟩ := of_mem_reported resolved
    rw [place]
    exact ⟨error, _, Lexed.slices_of_mem_all (List.mem_append_left _ among)⟩

/-- All that is wrong with a text is wrong at a place of it. -/
theorem ofText_pointsInto (text : String) : (ofText text).PointsInto text where
  parts := rfl
  inside d member := by
    obtain ⟨error, part, slices⟩ := slices_of_mem_diagnostics member
    exact ⟨error, slices.stop_le, part, slices⟩
  lexed d member := by
    rcases Lexed.mem_diagnostics_iff.mp member with ⟨_, c, bad, rfl⟩ | ⟨token, among, kind, -, rfl⟩
    · exact .inl ⟨c, bad⟩
    · exact .inr ⟨token, among, kind, rfl⟩
  parsed d member := (Tree.isAt_of_mem_diagnostics text member).2
  ordered := Tree.ascend_diagnostics text
  resolved d member := by
    obtain ⟨operator, among, -, place, named⟩ := of_mem_reported member
    have within : operator ∈ (ofText text).lexed.all := List.mem_append_left _ among
    refine ⟨⟨operator, within, place⟩, operator.text, named, ?_⟩
    rw [place]
    exact Lexed.slices_of_mem_all within
  distinct := nodup_span_reported text

end Analysis

end Reckon
