import Reckon.Proofs.Expr.Rendering

/-!
How high trees get. Two limits hold of every tree that is parsed: so many expressions are open at
once, and no infix expression is higher than that. Neither counts the signs and parentheses
around an infix expression, so that a tree gets almost twice as high as either limit.
-/

set_option autoImplicit false
set_option relaxedAutoImplicit false

namespace Reckon

namespace Node

/-- How many signs and pairs of parentheses are around a node. -/
def crust : Node → Nat
  | .unary _ operand => operand.crust + 1
  | .group _ inner _ => inner.crust + 1
  | _ => 0

/-- What is left of a node without the signs and parentheses around it. -/
def core : Node → Node
  | .unary _ operand => operand.core
  | .group _ inner _ => inner.core
  | node => node

theorem height_eq_crust_add (node : Node) : node.height = node.crust + node.core.height := by
  induction node with
  | literal _ _ => exact (Nat.zero_add _).symm
  | unary _ operand ih =>
    simp only [height, crust, core]
    omega
  | binary _ _ _ _ _ => exact (Nat.zero_add _).symm
  | group _ inner _ ih =>
    simp only [height, crust, core]
    omega

theorem FoldsWithin.core {limit : Nat} {node : Node} (folds : node.FoldsWithin limit) :
    node.core.FoldsWithin limit := by
  induction node with
  | literal _ _ => exact folds
  | unary _ _ ih => exact ih folds
  | binary _ _ _ _ _ => exact folds
  | group _ _ _ ih => exact ih folds

theorem core_cases (node : Node) :
    (∃ token value, node.core = .literal token value) ∨
      ∃ left operator right, node.core = .binary left operator right := by
  induction node with
  | literal token value => exact .inl ⟨token, value, rfl⟩
  | unary _ _ ih => exact ih
  | binary left operator right _ _ => exact .inr ⟨left, operator, right, rfl⟩
  | group _ _ _ ih => exact ih

end Node

namespace Parser.Reading

variable {room tier : Nat} {s : State} {extent : Extent} {p : Parsed}

/-- There is room for every sign and every pair of parentheses, and once they take all of it, a
number is invented inside. -/
theorem crust_le (reading : Reading room tier s extent p) :
    p.node.crust ≤ room ∧
      (p.node.crust = room → ∃ start, p.node.core = .ofToken (.invented .number start)) := by
  induction reading with
  | exhausted _ s => exact ⟨Nat.le_refl 0, fun _ => ⟨_, rfl⟩⟩
  | signed _ _ ih =>
    obtain ⟨bound, invented⟩ := ih
    exact ⟨Nat.succ_le_succ bound, fun full => invented (Nat.succ.inj full)⟩
  | group _ _ ih =>
    obtain ⟨bound, invented⟩ := ih
    exact ⟨Nat.succ_le_succ bound, fun full => invented (Nat.succ.inj full)⟩
  | literal => exact ⟨Nat.zero_le _, fun full => absurd full.symm (Nat.succ_ne_zero _)⟩
  | missing => exact ⟨Nat.zero_le _, fun full => absurd full.symm (Nat.succ_ne_zero _)⟩
  | join => exact ⟨Nat.zero_le _, fun full => absurd full.symm (Nat.succ_ne_zero _)⟩
  | drop _ _ _ _ ihl _ => exact ihl
  | stop _ _ ih => exact ih

private theorem of_no_room (reading : Reading 0 tier s extent p) :
    p.height = 1 ∧ p.state.ahead = [] := by
  cases reading with
  | exhausted => exact ⟨rfl, State.ahead_abandon _ _ _⟩

private theorem of_room_one (reading : Reading room tier s extent p) (one : room = 1)
    (ended : s.endOfInput.kind = .endOfInput) (begun : extent = .begun) :
    p.height = 1 ∨ p.height = 2 ∧ p.state.ahead = [] := by
  induction reading with
  | exhausted => cases one
  | signed _ inner _ =>
    obtain rfl := Nat.succ.inj one
    obtain ⟨height, ahead⟩ := inner.of_no_room
    exact .inr ⟨congrArg (· + 1) height, ahead⟩
  | @group _ _ _ body _ inner _ =>
    obtain rfl := Nat.succ.inj one
    obtain ⟨height, ahead⟩ := inner.of_no_room
    have closed := body.state.isSuffix_ahead_close
    rw [ahead] at closed
    exact .inr ⟨congrArg (· + 1) height, List.suffix_nil.mp closed⟩
  | literal => exact .inl rfl
  | missing => exact .inl rfl
  | @join _ _ _ left right first above second _ ihl _ =>
    obtain rfl := Nat.succ.inj one
    obtain ⟨rightHeight, ahead⟩ := second.of_no_room
    have inside := Token.Kind.ne_endOfInput_of_lt_infixTier above
    have more : left.state.ahead ≠ [] := by
      rw [State.ahead_eq_cons (first.ended ended) inside]
      exact List.cons_ne_nil _ _
    have leftHeight : left.height = 1 := by
      rcases ihl rfl ended rfl with height | ⟨-, nothing⟩
      · exact height
      · exact absurd nothing more
    refine .inr ⟨?_, ahead⟩
    simp only [leftHeight, rightHeight]
    rfl
  | drop => cases begun
  | stop => cases begun

/-- Every level of room but two allows for a sign around an infix expression that is as high as
can be. -/
theorem height_le (reading : Reading room tier s extent p)
    (ended : s.endOfInput.kind = .endOfInput) : p.height + 2 ≤ maxNesting + room := by
  have large : 3 ≤ maxNesting := by decide
  induction reading with
  | exhausted => exact large
  | signed _ _ ih =>
    have inner := ih ended
    simp only
    omega
  | group _ _ ih =>
    have inner := ih ended
    simp only
    omega
  | literal =>
    simp only
    omega
  | missing =>
    simp only
    omega
  | @join room _ _ left right first above second low _ _ =>
    cases room with
    | zero =>
      -- The limit of infix expressions alone would allow for one level more.
      have joined := Reading.join first above second low
      rcases joined.of_room_one rfl ended rfl with height | ⟨height, -⟩
      · omega
      · omega
    | succ room =>
      simp only
      omega
  | drop _ _ _ _ ihl _ => exact ihl ended
  | stop _ _ ih => exact ih ended

end Parser.Reading

namespace Tree

private theorem reading_root (text : String) :
    ∃ p : Parser.Parsed, p.node = (ofText text).root ∧
      Parser.Reading maxNesting 0 (Parser.start (.ofText text)) .whole p :=
  ⟨_, rfl, Parser.reading_expression maxNesting 0 _⟩

/-- Trees are at most two levels short of twice the limit of nesting. A tree is higher than the
limit if signs and parentheses add so many levels to an infix expression that is within the
limit, or if they alone take all room and there is an invented number inside; and in no other
case. -/
theorem height_root_le_and_exceeds_iff (text : String) :
    (ofText text).root.height ≤ 2 * maxNesting - 2 ∧
    (maxNesting < (ofText text).root.height ↔
      (∃ left operator right, (ofText text).root.core = .binary left operator right ∧
        (ofText text).root.core.height ≤ maxNesting ∧ (ofText text).root.crust < maxNesting ∧
        maxNesting < (ofText text).root.crust + (ofText text).root.core.height) ∨
      ((ofText text).root.crust = maxNesting ∧
        ∃ start, (ofText text).root.core = .ofToken (.invented .number start))) := by
  obtain ⟨p, root, reading⟩ := reading_root text
  have bound := reading.height_le rfl
  have split := (ofText text).root.height_eq_crust_add
  obtain ⟨room, invented⟩ := reading.crust_le
  have folds := reading.foldsWithin.core
  rw [reading.height_eq, root] at bound
  rw [root] at room invented folds
  refine ⟨by omega, ?_⟩
  constructor
  · intro high
    rw [split] at high
    rcases (ofText text).root.core_cases with ⟨token, value, core⟩ | ⟨left, operator, right, core⟩
    · right
      rw [core, Node.height] at high
      have full : (ofText text).root.crust = maxNesting := by omega
      exact ⟨full, invented full⟩
    · left
      have low : (ofText text).root.core.height ≤ maxNesting := by
        rw [core] at folds ⊢
        exact folds.1
      have spare : (ofText text).root.crust ≠ maxNesting := by
        intro full
        obtain ⟨start, literal⟩ := invented full
        rw [core] at literal
        cases literal
      exact ⟨left, operator, right, core, low, by omega, high⟩
  · rintro (⟨left, operator, right, -, -, -, high⟩ | ⟨full, start, literal⟩)
    · omega
    · rw [literal, Node.ofToken, Node.height] at split
      omega

end Tree

namespace Expr

/-- The sum `1 + 1 + ... + 1` of `n + 1` ones. -/
def ones : Nat → Expr
  | 0 => .number 1 (by decide)
  | n + 1 => .binary (ones n) .plus (.number 1 (by decide))

def negated (e : Expr) : Nat → Expr
  | 0 => e
  | n + 1 => .unary .minus (e.negated n)

variable (places : Nat → Span)

private theorem node_ones_succ (n i : Nat) :
    ∃ operator last, (ones (n + 1)).node places i =
      .binary ((ones n).node places i) operator (.ofToken last) := by
  have tight : (ones n).loose 4 = false := by
    cases n with
    | zero => rfl
    | succ n => rfl
  refine ⟨BinarySymbol.plus.lexeme.token (places (middle i (ones n) .plus)),
    (Lexeme.number 1).token (places (middle i (ones n) .plus + 1)), ?_⟩
  change Node.binary (.enclose places ((ones n).loose 4) i (ones n).lexemes.length
    ((ones n).node places (inside ((ones n).loose 4) i))) _ _ = _
  rw [tight]
  rfl

theorem height_ones (n i : Nat) :
    ((ones n).node places i).height = n + 1 ∧ ((ones n).node places i).rank ≤ 2 := by
  induction n generalizing i with
  | zero => exact ⟨rfl, Nat.le_succ 1⟩
  | succ n ih =>
    obtain ⟨operator, last, sum⟩ := node_ones_succ places n i
    obtain ⟨height, rank⟩ := ih i
    rw [sum]
    simp only [Node.height, Node.rank, Node.ofToken]
    omega

theorem height_negated_ones (k n i : Nat) :
    (((ones (n + 1)).negated (k + 1)).node places i).height = k + n + 4 ∧
    (((ones (n + 1)).negated (k + 1)).node places i).rank ≤ k + 4 ∧
    (n + 2 ≤ maxNesting →
      (((ones (n + 1)).negated (k + 1)).node places i).FoldsWithin maxNesting) := by
  induction k generalizing i with
  | zero =>
    obtain ⟨height, rank⟩ := height_ones places (n + 1) (i + 2)
    refine ⟨?_, ?_, ?_⟩
    · change ((ones (n + 1)).node places (i + 2)).height + 1 + 1 = 0 + n + 4
      omega
    · change ((ones (n + 1)).node places (i + 2)).rank + 1 + 1 ≤ 0 + 4
      omega
    · intro low
      have folds : ((ones (n + 1)).node places (i + 2)).FoldsWithin maxNesting :=
        Node.foldsWithin_of_height_le (by omega)
      exact folds
  | succ k ih =>
    obtain ⟨height, rank, folds⟩ := ih (i + 1)
    refine ⟨?_, ?_, ?_⟩
    · change (((ones (n + 1)).negated (k + 1)).node places (i + 1)).height + 1 = k + 1 + n + 4
      omega
    · change (((ones (n + 1)).negated (k + 1)).node places (i + 1)).rank + 1 ≤ k + 1 + 4
      omega
    · intro low
      exact folds low

end Expr

/-- The text `- - ... - ( 1 + 1 + ... + 1 )` of `k + 1` signs and `n + 2` ones. -/
def steep (k n : Nat) : String :=
  Layout.spaced.text ((Expr.ones (n + 1)).negated (k + 1)).lexemes

namespace Tree

/-- Signs and summands add up to the height of a tree, and nothing is reported as long as each of
them keeps to its own limit. -/
theorem height_root_steep {k n : Nat} (signs : k + 4 ≤ maxNesting) (summands : n + 2 ≤ maxNesting) :
    (ofText (steep k n)).root.height = k + n + 4 ∧ (ofText (steep k n)).diagnostics = [] := by
  rw [steep]
  obtain ⟨height, rank, folds⟩ := Expr.height_negated_ones
    (Layout.spaced.places ((Expr.ones (n + 1)).negated (k + 1)).lexemes) k n 0
  generalize (Expr.ones (n + 1)).negated (k + 1) = e at height rank folds ⊢
  have parsed : Parse.ofLexed (.ofText (Layout.spaced.text e.lexemes)) = ⟨_, [], none⟩ :=
    Layout.parse_text (Nat.le_trans rank signs) (folds summands)
  have lexed := Layout.spaced.diagnostics_text e.inRange_lexemes
  simp only [ofText, ofParse, parsed, lexed, List.nil_append, and_true]
  exact height

theorem height_root_steepest :
    maxNesting < (ofText (steep 252 254)).root.height ∧
    (ofText (steep 252 254)).root.height = 2 * maxNesting - 2 ∧
    (ofText (steep 252 254)).diagnostics = [] := by
  have signs : 252 + 4 ≤ maxNesting := by decide
  have summands : 254 + 2 ≤ maxNesting := by decide
  obtain ⟨height, clean⟩ := height_root_steep signs summands
  have double : 252 + 254 + 4 = 2 * maxNesting - 2 := by decide
  refine ⟨?_, height.trans double, clean⟩
  rw [height]
  decide

end Tree

end Reckon
