import Reckon.Proofs.Expr.Evaluation

/-!
The types of expressions as they are written, by rules that know neither the tables nor what
resolving leaves of an operator without a row. There is nothing to report about an expression
exactly if it has a type, and then the typed expression is the written one without its
parentheses. Recovery hides nothing: what is dropped was reported.
-/

set_option autoImplicit false
set_option relaxedAutoImplicit false

namespace Reckon

namespace Node

/-- The typing rules of the language. An expression that none of them gives a type has none. -/
inductive HasType : Node → Ty → Prop
  | literal (token : Token) (value : Value) : HasType (.literal token (some value)) value.ty
  | valueless (token : Token) : HasType (.literal token none) .integer
  | group (opening closing : Token) {body : Node} {ty : Ty} (inner : HasType body ty) :
      HasType (.group opening body closing) ty
  | sign {operator : Token} {operand : Node} (kind : operator.kind ∈ [.plus, .minus])
      (inner : HasType operand .integer) : HasType (.unary operator operand) .integer
  | negation {operator : Token} {operand : Node} (kind : operator.kind = .bang)
      (inner : HasType operand .boolean) : HasType (.unary operator operand) .boolean
  | arithmetic {left right : Node} {operator : Token}
      (kind : operator.kind ∈ [.plus, .minus, .star, .slash])
      (first : HasType left .integer) (second : HasType right .integer) :
      HasType (.binary left operator right) .integer
  | logic {left right : Node} {operator : Token} (kind : operator.kind ∈ [.andAnd, .orOr])
      (first : HasType left .boolean) (second : HasType right .boolean) :
      HasType (.binary left operator right) .boolean
  | equality {left right : Node} {operator : Token} {ty : Ty}
      (kind : operator.kind ∈ [.equal, .notEqual])
      (first : HasType left ty) (second : HasType right ty) :
      HasType (.binary left operator right) .boolean

/-- A typed expression is a written one without its parentheses, node for node: literals have the
values that are written, and every operator is what its symbol stands for, at the place of the
symbol. -/
inductive Erases : Node → Typed → Prop
  | literal (token : Token) (value : Value) :
      Erases (.literal token (some value)) (.literal value)
  | valueless (token : Token) : Erases (.literal token none) (.literal (.integer 0))
  | group (opening closing : Token) {body : Node} {t : Typed} (inner : Erases body t) :
      Erases (.group opening body closing) t
  | unary {operator : Token} {operand : Node} {rule : UnaryRule} {t : Typed}
      (symbol : UnarySymbol) (written : operator.kind = symbol.kind)
      (kept : rule.symbol = symbol.kind) (stands : rule.operation = symbol.operation)
      (inner : Erases operand t) :
      Erases (.unary operator operand) (.unary rule t operator.span)
  | binary {left right : Node} {operator : Token} {rule : BinaryRule} {t u : Typed}
      (symbol : BinarySymbol) (written : operator.kind = symbol.kind)
      (kept : rule.symbol = symbol.kind) (stands : some rule.operation = symbol.operation?)
      (first : Erases left t) (second : Erases right u) :
      Erases (.binary left operator right) (.binary t rule u operator.span)

end Node

theorem UnaryRule.exists_row_iff {kind : Token.Kind} {operand result : Ty} :
    (∃ rule ∈ table, rule.symbol = kind ∧ rule.operand = operand ∧ rule.result = result) ↔
      (kind ∈ [.plus, .minus] ∧ operand = .integer ∧ result = .integer) ∨
      (kind = .bang ∧ operand = .boolean ∧ result = .boolean) := by
  constructor
  · rintro ⟨rule, row, rfl, rfl, rfl⟩
    revert rule
    decide
  · rintro (⟨among, rfl, rfl⟩ | ⟨rfl, rfl, rfl⟩)
    · revert kind
      decide
    · decide

theorem BinaryRule.exists_row_iff {kind : Token.Kind} {left right result : Ty} :
    (∃ rule ∈ table, rule.symbol = kind ∧ rule.left = left ∧ rule.right = right ∧
      rule.result = result) ↔
      (kind ∈ [.plus, .minus, .star, .slash] ∧
        left = .integer ∧ right = .integer ∧ result = .integer) ∨
      (kind ∈ [.andAnd, .orOr] ∧ left = .boolean ∧ right = .boolean ∧ result = .boolean) ∨
      (kind ∈ [.equal, .notEqual] ∧ left = right ∧ result = .boolean) := by
  constructor
  · rintro ⟨rule, row, rfl, rfl, rfl, rfl⟩
    revert rule
    decide
  · rintro (⟨among, rfl, rfl, rfl⟩ | ⟨among, rfl, rfl, rfl⟩ | ⟨among, rfl, rfl⟩)
    · revert kind
      decide
    · revert kind
      decide
    · revert kind
      cases left <;> decide

theorem UnaryRule.exists_symbol : ∀ rule ∈ UnaryRule.table,
    ∃ symbol ∈ [UnarySymbol.plus, .minus, .bang], rule.symbol = symbol.kind := by
  decide

theorem BinaryRule.exists_symbol : ∀ rule ∈ BinaryRule.table,
    ∃ symbol ∈ [BinarySymbol.plus, .minus, .star, .slash, .andAnd, .orOr, .equal, .notEqual],
      rule.symbol = symbol.kind := by
  decide

namespace Node

variable {operator : Token} {ty : Ty}

theorem hasType_unary_iff {operand : Node} :
    (Node.unary operator operand).HasType ty ↔
      ∃ inner, operand.HasType inner ∧ ∃ rule ∈ UnaryRule.table,
        rule.symbol = operator.kind ∧ rule.operand = inner ∧ rule.result = ty := by
  constructor
  · intro typed
    cases typed with
    | sign kind inner => exact ⟨_, inner, UnaryRule.exists_row_iff.mpr (.inl ⟨kind, rfl, rfl⟩)⟩
    | negation kind inner =>
      exact ⟨_, inner, UnaryRule.exists_row_iff.mpr (.inr ⟨kind, rfl, rfl⟩)⟩
  · rintro ⟨_, inner, row⟩
    rcases UnaryRule.exists_row_iff.mp row with ⟨kind, rfl, rfl⟩ | ⟨kind, rfl, rfl⟩
    · exact .sign kind inner
    · exact .negation kind inner

theorem hasType_binary_iff {left right : Node} :
    (Node.binary left operator right).HasType ty ↔
      ∃ first second, left.HasType first ∧ right.HasType second ∧ ∃ rule ∈ BinaryRule.table,
        rule.symbol = operator.kind ∧ rule.left = first ∧ rule.right = second ∧
          rule.result = ty := by
  constructor
  · intro typed
    cases typed with
    | arithmetic kind first second =>
      exact ⟨_, _, first, second, BinaryRule.exists_row_iff.mpr (.inl ⟨kind, rfl, rfl, rfl⟩)⟩
    | logic kind first second =>
      exact ⟨_, _, first, second,
        BinaryRule.exists_row_iff.mpr (.inr (.inl ⟨kind, rfl, rfl, rfl⟩))⟩
    | equality kind first second =>
      exact ⟨_, _, first, second, BinaryRule.exists_row_iff.mpr (.inr (.inr ⟨kind, rfl, rfl⟩))⟩
  · rintro ⟨_, _, first, second, row⟩
    rcases BinaryRule.exists_row_iff.mp row with
      ⟨kind, rfl, rfl, rfl⟩ | ⟨kind, rfl, rfl, rfl⟩ | ⟨kind, rfl, rfl⟩
    · exact .arithmetic kind first second
    · exact .logic kind first second
    · exact .equality kind first second

end Node

namespace Resolver

theorem resolve_of_hasType {node : Node} {ty : Ty} (typed : node.HasType ty) (r : Resolver) :
    ∃ t : Typed, r.resolve node = (t, r) ∧ t.ty = ty ∧ node.Erases t := by
  induction node generalizing ty r with
  | literal token value =>
    cases typed with
    | literal _ value => exact ⟨.literal value, rfl, rfl, .literal token value⟩
    | valueless => exact ⟨.literal (.integer 0), rfl, rfl, .valueless token⟩
  | unary operator operand ih =>
    obtain ⟨_, inner, rule, row, stands, rfl, result⟩ := Node.hasType_unary_iff.mp typed
    obtain ⟨t, resolved, fits, erases⟩ := ih inner r
    obtain ⟨symbol, -, kept⟩ := UnaryRule.exists_symbol rule row
    have operation := symbol.operation_eq rule row kept
    refine ⟨.unary rule t operator.span, ?_, result, ?_⟩
    · rw [resolve, resolved]
      exact r.unary_of_mem_table row stands fits
    · exact .unary symbol (stands.symm.trans kept) kept operation.symm erases
  | binary left operator right ihl ihr =>
    obtain ⟨_, _, first, second, rule, row, stands, rfl, rfl, result⟩ :=
      Node.hasType_binary_iff.mp typed
    obtain ⟨t, leftResolved, leftFits, leftErases⟩ := ihl first r
    obtain ⟨u, rightResolved, rightFits, rightErases⟩ := ihr second r
    obtain ⟨symbol, -, kept⟩ := BinaryRule.exists_symbol rule row
    have operation := symbol.operation?_eq rule row kept
    refine ⟨.binary t rule u operator.span, ?_, result, ?_⟩
    · simp only [resolve, leftResolved, rightResolved]
      exact r.binary_of_mem_table row stands leftFits rightFits
    · exact .binary symbol (stands.symm.trans kept) kept operation.symm leftErases rightErases
  | group opening body closing ih =>
    cases typed with
    | group _ _ inner =>
      obtain ⟨t, resolved, fits, erases⟩ := ih inner r
      exact ⟨t, resolved, fits, .group opening closing erases⟩

theorem hasType_of_clean {node : Node} {r : Resolver}
    (clean : (r.resolve node).2.reported = r.reported) :
    node.HasType (r.resolve node).1.ty := by
  induction node generalizing r with
  | literal token value =>
    cases value with
    | some value => exact .literal token value
    | none => exact .valueless token
  | unary operator operand ih =>
    obtain ⟨innerClean, rule, row, stands, fits, result⟩ := row_of_unary_clean clean
    exact Node.hasType_unary_iff.mpr
      ⟨_, ih innerClean, rule, row, stands, fits.symm, result.symm⟩
  | binary left operator right ihl ihr =>
    obtain ⟨leftClean, rightClean, rule, row, stands, leftFits, rightFits, result⟩ :=
      row_of_binary_clean clean
    exact Node.hasType_binary_iff.mpr
      ⟨_, _, ihl leftClean, ihr rightClean, rule, row, stands, leftFits.symm, rightFits.symm,
        result.symm⟩
  | group opening body closing ih => exact .group opening closing (ih clean)

/-- Resolving decides the typing rules: there is nothing to report about an expression if and only
if it has a type. Then it is resolved to that type, and all that is gone from it are its
parentheses. -/
theorem clean_iff_hasType_and_erases (node : Node) :
    ((empty.resolve node).2.reported = [] ↔ ∃ ty : Ty, node.HasType ty) ∧
    ∀ ty : Ty, node.HasType ty →
      (empty.resolve node).1.ty = ty ∧ node.Erases (empty.resolve node).1 := by
  refine ⟨⟨fun clean => ⟨_, hasType_of_clean clean⟩, ?_⟩, ?_⟩
  · rintro ⟨ty, typed⟩
    obtain ⟨t, resolved, -, -⟩ := resolve_of_hasType typed empty
    rw [resolved]
    rfl
  · intro ty typed
    obtain ⟨t, resolved, fits, erases⟩ := resolve_of_hasType typed empty
    rw [resolved]
    exact ⟨fits, erases⟩

end Resolver

end Reckon
