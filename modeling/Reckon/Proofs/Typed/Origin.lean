import Reckon.Proofs.Expr.Evaluation
import Reckon.Proofs.Token.Tiling

/-!
Where the parts of a typed expression come from. Its operators are tokens of the expression that
was resolved, and a failure is told at one that can cause it. If nothing was reported, then its
literals are the values of the literal tokens, none left out and none made up.
-/

set_option autoImplicit false
set_option relaxedAutoImplicit false

namespace Reckon

namespace Typed

def literals : Typed → List Value
  | .literal value => [value]
  | .unary _ operand _ => operand.literals
  | .binary left _ right _ => left.literals ++ right.literals

def symbols : Typed → List (Token.Kind × Span)
  | .literal _ => []
  | .unary rule operand span => (rule.symbol, span) :: operand.symbols
  | .binary left rule right span => left.symbols ++ (rule.symbol, span) :: right.symbols

end Typed

/-- Whether a symbol stands for an operation that can fail in a way. -/
def Failure.IsFaultOf (kind : Token.Kind) : Failure → Prop
  | .divisionByZero _ => kind = .slash
  | .overflow _ => kind ∈ [.plus, .minus, .star, .slash]
  | .invalidOperand _ _ _ | .invalidOperands _ _ _ _ => False

/-- A result is no failure, or one of an operator among so many. -/
def Failure.IsAmong (symbols : List (Token.Kind × Span)) : Except Failure Value → Prop
  | .ok _ => True
  | .error failure => ∃ kind, (kind, failure.span) ∈ symbols ∧ failure.IsFaultOf kind

namespace Failure.IsAmong

variable {symbols more : List (Token.Kind × Span)} {result : Except Failure Value}

theorem mono (among : IsAmong symbols result) (subset : symbols ⊆ more) : IsAmong more result := by
  cases result with
  | ok _ => trivial
  | error failure =>
    obtain ⟨kind, member, fault⟩ := among
    exact ⟨kind, subset member, fault⟩

theorem bind {next : Value → Except Failure Value} (first : IsAmong symbols result)
    (rest : ∀ value, result = .ok value → IsAmong symbols (next value)) :
    IsAmong symbols (result >>= next) := by
  cases result with
  | ok value => exact rest value rfl
  | error _ => exact first

theorem ofExact (n : Int) {span : Span} {kind : Token.Kind}
    (fault : kind ∈ [.plus, .minus, .star, .slash]) :
    IsAmong [(kind, span)] (Value.ofExact n span) := by
  unfold Value.ofExact
  split
  · trivial
  · exact ⟨kind, List.mem_singleton_self _, fault⟩

end Failure.IsAmong

theorem UnaryRule.isAmong_apply {rule : UnaryRule} (row : rule ∈ UnaryRule.table) (span : Span)
    {operand : Value} (fits : operand.ty = rule.operand) :
    Failure.IsAmong [(rule.symbol, span)] (rule.operation.apply operand span) := by
  simp only [UnaryRule.table, List.mem_cons, List.not_mem_nil, or_false] at row
  rcases row with rfl | rfl | rfl
  · obtain ⟨n, rfl⟩ := Value.eq_integer_of_ty fits
    trivial
  · obtain ⟨n, rfl⟩ := Value.eq_integer_of_ty fits
    exact .ofExact _ (by decide)
  · obtain ⟨b, rfl⟩ := Value.eq_boolean_of_ty fits
    trivial

private theorem BinaryRule.symbol_of_mem_table : ∀ rule ∈ BinaryRule.table,
    (rule.operation = .division → rule.symbol = .slash) ∧
    (rule.operation ∈ [.addition, .subtraction, .multiplication, .division] →
      rule.symbol ∈ [.plus, .minus, .star, .slash]) := by
  decide

private theorem BinaryOperation.isAmong_arithmetic {operation : BinaryOperation}
    (arithmetic : operation ∈ [.addition, .subtraction, .multiplication, .division])
    {kind : Token.Kind} (fault : kind ∈ [.plus, .minus, .star, .slash])
    (division : operation = .division → kind = .slash) (a b : Int64) (span : Span) :
    Failure.IsAmong [(kind, span)] (operation.apply (.integer a) (.integer b) span) := by
  simp only [List.mem_cons, List.not_mem_nil, or_false] at arithmetic
  rcases arithmetic with rfl | rfl | rfl | rfl
  · exact .ofExact _ fault
  · exact .ofExact _ fault
  · exact .ofExact _ fault
  · simp only [apply, BinaryOperation.arithmetic]
    split
    · exact ⟨kind, List.mem_singleton_self _, division rfl⟩
    · exact .ofExact _ fault

private theorem BinaryOperation.apply_eq_ok {operation : BinaryOperation} {left right : Value}
    (total : (operation ∈ [.logicalAnd, .logicalOr] ∧ left.ty = .boolean ∧ right.ty = .boolean) ∨
      (operation ∈ [.equals, .notEquals] ∧ left.ty = right.ty)) (span : Span) :
    ∃ value, operation.apply left right span = .ok value := by
  simp only [List.mem_cons, List.not_mem_nil, or_false] at total
  rcases total with ⟨logic, leftTy, rightTy⟩ | ⟨equality, same⟩
  · obtain ⟨a, rfl⟩ := Value.eq_boolean_of_ty leftTy
    obtain ⟨b, rfl⟩ := Value.eq_boolean_of_ty rightTy
    rcases logic with rfl | rfl
    · exact ⟨_, rfl⟩
    · exact ⟨_, rfl⟩
  · rcases equality with rfl | rfl
    · exact ⟨_, if_neg (not_not_intro same)⟩
    · exact ⟨_, if_neg (not_not_intro same)⟩

theorem BinaryRule.isAmong_apply {rule : BinaryRule} (row : rule ∈ BinaryRule.table) (span : Span)
    {left right : Value} (leftFits : left.ty = rule.left) (rightFits : right.ty = rule.right) :
    Failure.IsAmong [(rule.symbol, span)] (rule.operation.apply left right span) := by
  have total : (∃ value, rule.operation.apply left right span = .ok value) →
      Failure.IsAmong [(rule.symbol, span)] (rule.operation.apply left right span) := by
    rintro ⟨value, done⟩
    rw [done]
    trivial
  rcases BinaryRule.form_of_mem_table rule row with
    ⟨operation, leftTy, rightTy, -⟩ | ⟨operation, leftTy, rightTy, -⟩ | ⟨operation, same, -⟩
  · obtain ⟨a, rfl⟩ := Value.eq_integer_of_ty (leftFits.trans leftTy)
    obtain ⟨b, rfl⟩ := Value.eq_integer_of_ty (rightFits.trans rightTy)
    obtain ⟨division, symbol⟩ := BinaryRule.symbol_of_mem_table rule row
    exact BinaryOperation.isAmong_arithmetic operation (symbol operation) division a b span
  · have booleans := And.intro (leftFits.trans leftTy) (rightFits.trans rightTy)
    exact total (BinaryOperation.apply_eq_ok (.inl ⟨operation, booleans⟩) span)
  · have types : left.ty = right.ty := leftFits.trans (same.trans rightFits.symm)
    exact total (BinaryOperation.apply_eq_ok (.inr ⟨operation, types⟩) span)

/-- A well-typed expression fails at one of its own operators, in a way of that operator. -/
theorem Typed.WellTyped.isAmong_eval {typed : Typed} (wellTyped : typed.WellTyped) :
    Failure.IsAmong typed.symbols typed.eval := by
  induction wellTyped with
  | literal value => trivial
  | @unary rule operand span row fits inner ih =>
    refine (ih.mono (List.subset_cons_self _ _)).bind fun value done => ?_
    have valueFits := (inner.ty_eq_of_eval done).trans fits
    refine (UnaryRule.isAmong_apply row span valueFits).mono ?_
    simp
  | @binary left right rule span row leftFits rightFits first second ihl ihr =>
    refine (ihl.mono (by simp [Typed.symbols])).bind fun firstValue firstDone => ?_
    refine (ihr.mono (by simp [Typed.symbols])).bind fun secondValue secondDone => ?_
    have firstFits := (first.ty_eq_of_eval firstDone).trans leftFits
    have secondFits := (second.ty_eq_of_eval secondDone).trans rightFits
    refine (BinaryRule.isAmong_apply row span firstFits secondFits).mono ?_
    simp [Typed.symbols]

namespace Resolver

theorem exists_mem_tokens {r : Resolver} {node : Node} {kind : Token.Kind} {span : Span}
    (member : (kind, span) ∈ (r.resolve node).1.symbols) :
    ∃ token ∈ node.tokens, token.kind = kind ∧ token.span = span := by
  induction node generalizing r with
  | literal _ _ => cases member
  | unary symbol operand ih =>
    rw [resolve, unary] at member
    split at member
    next rule found =>
      obtain ⟨-, stands, -⟩ := UnaryRule.of_find?_eq_some found
      rcases List.mem_cons.mp member with same | member
      · obtain ⟨rfl, rfl⟩ := Prod.mk.inj same
        exact ⟨symbol, List.mem_cons_self, stands.symm, rfl⟩
      · obtain ⟨token, among, same⟩ := ih member
        exact ⟨token, List.mem_cons_of_mem _ among, same⟩
    next =>
      obtain ⟨token, among, same⟩ := ih member
      exact ⟨token, List.mem_cons_of_mem _ among, same⟩
  | binary left symbol right ihl ihr =>
    have fromLeft {s : Resolver} (member : (kind, span) ∈ (s.resolve left).1.symbols) :
        ∃ token ∈ (Node.binary left symbol right).tokens,
          token.kind = kind ∧ token.span = span := by
      obtain ⟨token, among, same⟩ := ihl member
      exact ⟨token, List.mem_append_left _ among, same⟩
    rw [resolve, binary] at member
    split at member
    next rule found =>
      obtain ⟨-, stands, -⟩ := BinaryRule.of_find?_eq_some found
      rcases List.mem_append.mp member with member | member
      · exact fromLeft member
      · rcases List.mem_cons.mp member with same | member
        · obtain ⟨rfl, rfl⟩ := Prod.mk.inj same
          exact ⟨symbol, by simp [Node.tokens], stands.symm, rfl⟩
        · obtain ⟨token, among, same⟩ := ihr member
          exact ⟨token, by simp [Node.tokens, among], same⟩
    next => exact fromLeft member
  | group opening inner closing ih =>
    obtain ⟨token, among, same⟩ := ih member
    exact ⟨token, by simp [Node.tokens, among], same⟩

end Resolver

/-- The value that a literal token denotes, whatever the range of integers. -/
def Token.denotation? (token : Token) : Option Exact :=
  match token.kind with
  | .number => some (.integer token.decimal)
  | .trueWord => some (.boolean true)
  | .falseWord => some (.boolean false)
  | _ => none

namespace Token

theorem denotation?_eq_none {token : Token} (other : ¬ token.kind.IsLiteral) :
    token.denotation? = none := by
  unfold denotation?
  split
  next number => exact absurd (.inl number) other
  next word => exact absurd (.inr (.inl word)) other
  next word => exact absurd (.inr (.inr word)) other
  next => rfl

theorem Kind.not_isLiteral_of_isSign {kind : Kind} (sign : kind.IsSign) : ¬ kind.IsLiteral := by
  rcases sign with rfl | rfl | rfl <;> simp [IsLiteral]

theorem Kind.not_isLiteral_of_infixTier {kind : Kind} (symbol : kind.infixTier ≠ 0) :
    ¬ kind.IsLiteral := by
  rintro (rfl | rfl | rfl) <;> exact symbol rfl

end Token

theorem Resolver.literals_resolve {r : Resolver} {node : Node} (canonical : node.Canonical)
    (sound : ∀ token ∈ node.tokens, token.kind.IsLiteral →
      ∃ value, token.value = some value ∧ token.denotation? = some value.exact)
    (clean : (r.resolve node).2.reported = r.reported) :
    (r.resolve node).1.literals.map Value.exact = node.tokens.filterMap Token.denotation? := by
  induction canonical generalizing r with
  | @literal token kind =>
    obtain ⟨value, carried, denoted⟩ := sound token (List.mem_singleton_self _) kind
    simp [resolve, Typed.literals, Node.tokens, carried, denoted]
  | @unary operator operand sign _ _ ih =>
    obtain ⟨innerClean, rule, row, stands, fits, -⟩ := row_of_unary_clean clean
    have silent := Token.denotation?_eq_none (Token.Kind.not_isLiteral_of_isSign sign)
    have inner := ih (fun token member => sound token (List.mem_cons_of_mem _ member)) innerClean
    rw [resolve, unary_of_mem_table _ row stands fits, Node.tokens,
      List.filterMap_cons_none silent]
    exact inner
  | @binary left operator right symbol _ _ _ _ ihl ihr =>
    obtain ⟨leftClean, rightClean, rule, row, stands, leftFits, rightFits, -⟩ :=
      row_of_binary_clean clean
    have silent := Token.denotation?_eq_none (Token.Kind.not_isLiteral_of_infixTier symbol)
    have first := ihl (fun token member => sound token (List.mem_append_left _ member)) leftClean
    have second := ihr
      (fun token member => sound token (by simp [Node.tokens, member])) rightClean
    rw [resolve, binary_of_mem_table _ row stands leftFits rightFits, Node.tokens,
      List.filterMap_append, List.filterMap_cons_none silent, ← first, ← second]
    exact List.map_append
  | @group opening body closing opens closes _ ih =>
    have openSilent : opening.denotation? = none := by
      simp [Token.denotation?, opens]
    have closeSilent : closing.denotation? = none := by
      simp [Token.denotation?, closes]
    have inner := ih (fun token member => sound token (by simp [Node.tokens, member])) clean
    rw [resolve, inner, Node.tokens, List.filterMap_cons_none openSilent, List.filterMap_append,
      List.filterMap_cons_none closeSilent, List.filterMap_nil, List.append_nil]

end Reckon
