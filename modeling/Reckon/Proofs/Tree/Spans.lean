import Reckon.Node.Basic
import Reckon.Proofs.Node.Moves

/-!
Places of a tree. Whatever is wrong with a text, its tree has the first tokens of the text, each of
them once, and the invented ones stand between them in the order of their places. Hence the span of
every node goes from its first token to its last one, and holds the spans of its children, which
follow each other without overlap.
-/

set_option autoImplicit false
set_option relaxedAutoImplicit false

namespace Reckon

/-- A row of tokens in the order of their places, none of which overlaps another. -/
def Token.InOrder (row : List Token) : Prop :=
  row.Pairwise fun s t => s.span.stop ≤ t.span.start

theorem Token.InOrder.start_le {first token : Token} {rest : List Token}
    (ordered : InOrder (first :: rest)) (member : token ∈ first :: rest) :
    first.span.start ≤ token.span.start := by
  rcases List.mem_cons.mp member with rfl | later
  · exact Nat.le_refl _
  · have apart : first.span.stop ≤ token.span.start := List.rel_of_pairwise_cons ordered later
    exact Nat.le_trans (Nat.le_add_right _ _) apart

namespace Parser

/-- The tokens not read, with the one that ends the text. -/
def State.rest (s : State) : List Token :=
  s.ahead ++ [s.endOfInput]

theorem State.rest_eq_cons (s : State) : ∃ more, s.rest = s.current :: more := by
  cases ahead : s.ahead with
  | nil =>
    refine ⟨[], ?_⟩
    simp only [rest, current, ahead, List.nil_append]
  | cons token more =>
    refine ⟨more ++ [s.endOfInput], ?_⟩
    simp only [rest, current, ahead, List.cons_append]

theorem State.rest_abandon (s : State) (span : Span) (depth : Nat) :
    (s.abandon span depth).rest = [s.endOfInput] := by
  simp [rest]

theorem inOrder_invent {kept : List Token} {s : State}
    (ordered : Token.InOrder (kept ++ s.rest)) (kind : Token.Kind) :
    Token.InOrder (kept ++ [.invented kind s.current.span.start] ++ s.rest) := by
  obtain ⟨more, rest⟩ := s.rest_eq_cons
  rw [rest] at ordered ⊢
  obtain ⟨before, behind, across⟩ := List.pairwise_append.mp ordered
  have later : ∀ token ∈ s.current :: more, s.current.span.start ≤ token.span.start :=
    fun _ => Token.InOrder.start_le behind
  rw [List.append_assoc]
  refine List.pairwise_append.mpr ⟨before, .cons later behind, ?_⟩
  intro token member other among
  have next := across token member s.current List.mem_cons_self
  rcases List.mem_cons.mp among with rfl | among
  · exact next
  · exact Nat.le_trans next (later other among)

theorem inOrder_abandon {kept left : List Token} {s : State}
    (ordered : Token.InOrder (kept ++ s.rest)) (part : left <+: kept) (span : Span) (depth : Nat) :
    Token.InOrder (left ++ (s.abandon span depth).rest) := by
  have last : List.Sublist [s.endOfInput] s.rest :=
    List.sublist_append_right s.ahead [s.endOfInput]
  rw [State.rest_abandon]
  exact List.Pairwise.sublist (part.sublist.append last) ordered

theorem Move.inOrder {a b : Progress} (move : Move a b)
    (ordered : Token.InOrder (a.kept ++ a.state.rest)) :
    Token.InOrder (b.kept ++ b.state.rest) := by
  cases move with
  | @read kept s inside =>
    have same : kept ++ [s.current] ++ s.advance.rest = kept ++ s.rest := by
      simp [State.rest, inside]
    exact same ▸ ordered
  | lackOperand => exact inOrder_invent ordered .number
  | lackClosing => exact inOrder_invent ordered .closeParen
  | closeAbandoned => exact inOrder_invent ordered .closeParen
  | exhaust _ depth =>
    exact inOrder_abandon (inOrder_invent ordered .number) (List.prefix_refl _) _ depth
  | drop depth => exact inOrder_abandon ordered (List.prefix_append _ _) _ depth

end Parser

structure Span.Covers (span : Span) (row : List Token) : Prop where
  start : row.head?.map (·.span.start) = some span.start
  stop : row.getLast?.map (·.span.stop) = some span.stop

namespace Span.Covers

variable {span other : Span} {row more : List Token}

theorem exists_first (covers : span.Covers row) :
    ∃ token rest, row = token :: rest ∧ token.span.start = span.start := by
  obtain ⟨token, first, start⟩ := Option.map_eq_some_iff.mp covers.start
  obtain ⟨rest, rfl⟩ := List.head?_eq_some_iff.mp first
  exact ⟨token, rest, rfl, start⟩

theorem exists_last (covers : span.Covers row) :
    ∃ before token, row = before ++ [token] ∧ token.span.stop = span.stop := by
  obtain ⟨token, last, stop⟩ := Option.map_eq_some_iff.mp covers.stop
  obtain ⟨before, rfl⟩ := List.getLast?_eq_some_iff.mp last
  exact ⟨before, token, rfl, stop⟩

theorem start_le (covers : span.Covers row) (ordered : Token.InOrder row) {token : Token}
    (member : token ∈ row) : span.start ≤ token.span.start := by
  obtain ⟨first, rest, rfl, start⟩ := covers.exists_first
  rw [← start]
  exact ordered.start_le member

theorem le_stop (covers : span.Covers row) (ordered : Token.InOrder row) {token : Token}
    (member : token ∈ row) : token.span.stop ≤ span.stop := by
  obtain ⟨before, last, rfl, stop⟩ := covers.exists_last
  rw [← stop]
  rcases List.mem_append.mp member with earlier | same
  · have apart : token.span.stop ≤ last.span.start :=
      (List.pairwise_append.mp ordered).2.2 token earlier last (List.mem_singleton_self last)
    exact Nat.le_trans apart (Nat.le_add_right _ _)
  · obtain rfl := List.mem_singleton.mp same
    exact Nat.le_refl _

theorem token (token : Token) : token.span.Covers [token] :=
  ⟨rfl, rfl⟩

/-- Two spans with a row between them are joined to one. Their order is what keeps the length from
being cut off at zero. -/
theorem join (first : span.Covers row) (between : List Token) (second : other.Covers more)
    (ordered : Token.InOrder (row ++ (between ++ more))) :
    (Span.ofBounds span.start other.stop).Covers (row ++ (between ++ more)) := by
  obtain ⟨a, rest, rfl, start⟩ := first.exists_first
  obtain ⟨before, z, rfl, stop⟩ := second.exists_last
  have apart : a.span.stop ≤ z.span.start :=
    (List.pairwise_append.mp ordered).2.2 a (by simp) z (by simp)
  have bounds : span.start ≤ other.stop := by
    simp only [Span.stop] at apart stop ⊢
    omega
  refine ⟨congrArg some start, ?_⟩
  have regroup : a :: rest ++ (between ++ (before ++ [z])) =
      a :: rest ++ (between ++ before) ++ [z] := by
    simp
  rw [Span.stop_ofBounds bounds, regroup, List.getLast?_concat]
  exact congrArg some stop

end Span.Covers

theorem Node.covers_span {node : Node} (ordered : Token.InOrder node.tokens) :
    node.span.Covers node.tokens := by
  induction node with
  | literal token _ => exact .token token
  | unary operator operand ih =>
    exact (Span.Covers.token operator).join [] (ih ordered.of_cons) ordered
  | binary left operator right ihl ihr =>
    obtain ⟨first, rest, -⟩ := List.pairwise_append.mp ordered
    exact (ihl first).join [operator] (ihr rest.of_cons) ordered
  | group opening inner closing _ =>
    exact (Span.Covers.token opening).join inner.tokens (.token closing) ordered

def Element.tokens : Element → List Token
  | .node n => n.tokens
  | .token t => [t]

theorem Element.covers_span {element : Element} (ordered : Token.InOrder element.tokens) :
    element.span.Covers element.tokens := by
  cases element with
  | node n => exact Node.covers_span ordered
  | token t => exact .token t

namespace Node

theorem tokens_eq_flatMap (node : Node) : node.tokens = node.children.flatMap Element.tokens := by
  cases node <;> simp [tokens, children, Element.tokens]

inductive PartOf (part : Node) : Node → Prop
  | self : PartOf part part
  | child {child node : Node} (below : .node child ∈ node.children)
      (inside : PartOf part child) : PartOf part node

/-- The span of a node reaches from its first token to its last one and no further than the text.
The spans of its children are in it, one after another. -/
structure WellPlaced (length : Nat) (node : Node) : Prop where
  covers : node.span.Covers node.tokens
  inside : node.span.stop ≤ length
  holds : ∀ child ∈ node.children,
    node.span.start ≤ child.span.start ∧ child.span.stop ≤ node.span.stop
  apart : node.children.Pairwise fun s t => s.span.stop ≤ t.span.start

theorem PartOf.sublist_tokens {part node : Node} (inside : part.PartOf node) :
    part.tokens.Sublist node.tokens := by
  induction inside with
  | self => exact .refl _
  | @child child node below _ ih =>
    have member : child.tokens ∈ node.children.map Element.tokens := List.mem_map_of_mem below
    have sublist := List.sublist_flatten_of_mem member
    rw [node.tokens_eq_flatMap]
    exact ih.trans sublist

theorem wellPlaced_of_inOrder {length : Nat} {node : Node} (ordered : Token.InOrder node.tokens)
    (bounded : ∀ token ∈ node.tokens, token.span.stop ≤ length) : node.WellPlaced length := by
  have covers := covers_span ordered
  have parts := ordered
  rw [Token.InOrder, node.tokens_eq_flatMap] at parts
  obtain ⟨each, across⟩ := List.pairwise_flatMap.mp parts
  have childCovers : ∀ child ∈ node.children, child.span.Covers child.tokens :=
    fun child member => Element.covers_span (each child member)
  have inside : ∀ child ∈ node.children, ∀ token ∈ child.tokens, token ∈ node.tokens := by
    intro child member token among
    rw [node.tokens_eq_flatMap]
    exact List.mem_flatMap.mpr ⟨child, member, among⟩
  refine ⟨covers, ?_, ?_, ?_⟩
  · obtain ⟨before, last, row, stop⟩ := covers.exists_last
    rw [← stop]
    exact bounded last (by simp [row])
  · intro child member
    obtain ⟨first, rest, row, start⟩ := (childCovers child member).exists_first
    obtain ⟨before, last, row', stop⟩ := (childCovers child member).exists_last
    rw [← start, ← stop]
    exact ⟨covers.start_le ordered (inside child member first (by simp [row])),
      covers.le_stop ordered (inside child member last (by simp [row']))⟩
  · refine across.imp_of_mem ?_
    intro s t left right apart
    obtain ⟨before, last, row, stop⟩ := (childCovers s left).exists_last
    obtain ⟨first, rest, row', start⟩ := (childCovers t right).exists_first
    rw [← stop, ← start]
    exact apart last (by simp [row]) first (by simp [row'])

end Node

namespace Tree

theorem inOrder_tokens (text : String) :
    Token.InOrder ((ofText text).root.tokens ++ (Parser.after (.ofText text)).rest) :=
  (moves_root text).preserves Parser.Move.inOrder (Lexed.pairwise_all text)

theorem stop_le_of_mem_tokens {text : String} {token : Token}
    (member : token ∈ (ofText text).root.tokens) : token.span.stop ≤ text.utf8ByteSize := by
  have ends : (Parser.after (.ofText text)).endOfInput = .atEnd text :=
    (traces_root text).endOfInput
  have last : Token.atEnd text ∈ (Parser.after (.ofText text)).rest := by
    simp [Parser.State.rest, ends]
  exact (List.pairwise_append.mp (inOrder_tokens text)).2.2 token member _ last

/-- The tree of any text has the first tokens of the text, each of them once and never the one that
ends it. Its tokens are in the order of their places, invented ones included. Hence every node
reaches from its first token to its last one, inside the text, and its children follow each other
inside of it. -/
theorem root_wellPlaced (text : String) :
    Token.written (ofText text).root.tokens <+: (Lexed.ofText text).all ∧
    (∀ token ∈ Token.written (ofText text).root.tokens, token.kind ≠ .endOfInput) ∧
    (Token.written (ofText text).root.tokens).Nodup ∧
    Token.InOrder (ofText text).root.tokens ∧
    ∀ node : Node, node.PartOf (ofText text).root → node.WellPlaced text.utf8ByteSize := by
  have part : Token.written (ofText text).root.tokens <+: (Lexed.ofText text).tokens :=
    (traces_root text).isPrefix
  have ordered := (List.pairwise_append.mp (inOrder_tokens text)).1
  have distinct : (Lexed.ofText text).all.Nodup :=
    (Lexed.pairwise_start_all text).imp fun before same => by simp [same] at before
  have whole := part.trans (List.prefix_append _ [(Lexed.ofText text).endOfInput])
  refine ⟨whole, ?_, distinct.sublist whole.sublist, ordered, ?_⟩
  · intro token member
    obtain ⟨_, _, -, -, longest⟩ := Lexed.longestMatch_of_mem_tokens (part.subset member)
    exact longest.spelled.ne_endOfInput
  · intro node inside
    have sublist := inside.sublist_tokens
    refine Node.wellPlaced_of_inOrder (ordered.sublist sublist) ?_
    exact fun token member => stop_le_of_mem_tokens (sublist.subset member)

end Tree

end Reckon
