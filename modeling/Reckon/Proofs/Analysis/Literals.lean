import Reckon.Proofs.Analysis.Parentheses
import Reckon.Proofs.Expr.Evaluation

/-!
Values as texts. A value is written as a literal, or as a literal behind a minus sign, and this text
evaluates to the value again. The one exception is the lowest integer: its digits alone are a number
out of range, so that its text is rejected.
-/

set_option autoImplicit false
set_option relaxedAutoImplicit false

namespace Reckon

def Lexeme.tokenAt (l : Lexeme) (start : Nat) : Token :=
  l.token ⟨start, Text.byteSize l.text⟩

namespace Lexeme

theorem decimal?_number (n : Nat) : Placed.decimal? (number n).text = narrow? n := by
  rw [Placed.decimal?, number, Nat.ofDigitChars_ten_toDigits]

theorem toString_eq (n : Nat) : toString n = String.ofList (number n).text :=
  Nat.toString_eq_ofList_toDigits

theorem inRange_number_iff (n : Nat) :
    (number n).InRange ↔ n ≤ Int64.maxValue.toInt := by
  have outside := @Placed.decimal?_eq_none_iff (number n).text
  rw [number, Nat.ofDigitChars_ten_toDigits] at outside
  rw [← Int.not_lt, ← outside]
  exact not_congr (and_iff_right rfl)

variable {l : Lexeme} (start : Nat)

theorem outOfRange?_tokenAt (inRange : l.InRange) : (l.tokenAt start).outOfRange? = none := by
  refine if_neg fun wrong => inRange ?_
  rwa [← String.toList_ofList (l := l.text)]

theorem outOfRange?_tokenAt_of_not (outside : ¬ l.InRange) :
    (l.tokenAt start).outOfRange? =
      some (.error (l.tokenAt start).span (.numberOutOfRange (String.ofList l.text))) := by
  refine if_pos ?_
  show l.kind = .number ∧ Placed.decimal? (String.ofList l.text).toList = none
  rw [String.toList_ofList]
  exact Classical.not_not.mp outside

end Lexeme

namespace Lexed

theorem ofText_lexeme (l : Lexeme) :
    (ofText (String.ofList l.text)).tokens = [l.tokenAt 0] ∧
      (ofText (String.ofList l.text)).diagnostics = (l.tokenAt 0).outOfRange?.toList := by
  have placed : Placed.ofText (String.ofList l.text) = [⟨0, .lexeme l.kind l.text⟩] := by
    rw [Placed.ofText, String.toList_ofList, l.cut_text]
    rfl
  have token : Placed.token? ⟨0, .lexeme l.kind l.text⟩ = some (l.tokenAt 0) := rfl
  have wrong : Placed.diagnostic? ⟨0, .lexeme l.kind l.text⟩ = (l.tokenAt 0).outOfRange? := by
    rw [Placed.diagnostic?_eq_bind (by simp), token]
    rfl
  simp only [ofText, placed, List.filterMap_cons, List.filterMap_nil, token, wrong, true_and]
  cases (l.tokenAt 0).outOfRange? <;> rfl

theorem ofText_minus_lexeme (l : Lexeme) :
    (ofText ("-" ++ String.ofList l.text)).tokens = [.single .minus '-' 0, l.tokenAt 1] ∧
      (ofText ("-" ++ String.ofList l.text)).diagnostics = (l.tokenAt 1).outOfRange?.toList := by
  have seam : Piece.cut ("-".toList ++ (String.ofList l.text).toList) =
      Piece.cut "-".toList ++ Piece.cut (String.ofList l.text).toList := by
    have alone := Piece.single_minus.cut_replicate 1
    exact (Piece.single_minus.cut_replicate_append 1 _).trans (congrArg (· ++ _) alone.symm)
  obtain ⟨sign, nothing⟩ := Piece.single_minus.ofText_replicate 1
  obtain ⟨tokens, diagnostics⟩ := ofText_lexeme l
  have moved : (l.tokenAt 0).relocate (.shift 1) = l.tokenAt 1 := rfl
  constructor
  · rw [tokens_append seam, tokens]
    exact congrArg (· ++ _) sign
  · calc (ofText ("-" ++ String.ofList l.text)).diagnostics
        = [] ++ ((l.tokenAt 0).outOfRange?.toList).map (.relocate (.shift 1)) := by
          rw [diagnostics_append seam, diagnostics]
          exact congrArg (· ++ _) nothing
      _ = (l.tokenAt 1).outOfRange?.toList := by
          rw [List.nil_append, ← Option.toList_map, ← moved, Token.outOfRange?_relocate]

end Lexed

namespace Analysis

variable {text : String} {node : Node} {typed : Typed}

/-- A text that is read and well typed has no more wrong with it than its characters. -/
theorem evaluate_of_reads (reads : node.Reads (.ofText text))
    (resolved : Resolver.empty.resolve node = (typed, .empty)) :
    evaluate text =
      if (Lexed.ofText text).diagnostics = [] then .ofEval typed.eval
      else .rejected (Lexed.ofText text).diagnostics := by
  have parsed := Parse.ofLexed_of_reads rfl reads
  have nothing : Resolver.empty.reported = [] := rfl
  simp only [evaluate, outcome, ofText, parsed, resolved, nothing, List.append_nil]

theorem evaluate_lexeme {l : Lexeme} (literal : l.kind.IsLiteral) (inRange : l.InRange)
    {value : Value} (denotes : Placed.literal l.kind l.text = some value) :
    evaluate (String.ofList l.text) = .value value := by
  obtain ⟨tokens, diagnostics⟩ := Lexed.ofText_lexeme l
  have reads : (Node.ofToken (l.tokenAt 0)).Reads (.ofText (String.ofList l.text)) :=
    { canonical := .literal literal
      tokens := by
        rw [Lexed.all, tokens]
        rfl
      rank := Nat.le_of_ble_eq_true rfl
      folds := trivial }
  have resolved : Resolver.empty.resolve (.ofToken (l.tokenAt 0)) = (.literal value, .empty) := by
    show (Typed.literal ((Placed.literal l.kind l.text).getD _), Resolver.empty) = _
    rw [denotes, Option.getD_some]
  rw [evaluate_of_reads reads resolved, diagnostics, Lexeme.outOfRange?_tokenAt 0 inRange]
  rfl

section

variable (n : Nat)

private theorem evaluate_minus_number :
    evaluate ("-" ++ String.ofList (Lexeme.number n).text) =
      if ((Lexeme.number n).tokenAt 1).outOfRange?.toList = [] then
        .ofEval (Value.ofExact (-((narrow? n).getD 0).toInt) ⟨0, 1⟩)
      else .rejected ((Lexeme.number n).tokenAt 1).outOfRange?.toList := by
  obtain ⟨tokens, diagnostics⟩ := Lexed.ofText_minus_lexeme (.number n)
  have reads : (Node.unary (.single .minus '-' 0) (.ofToken ((Lexeme.number n).tokenAt 1))).Reads
      (.ofText ("-" ++ String.ofList (Lexeme.number n).text)) :=
    { canonical := .unary (.inr (.inl rfl)) (Nat.lt_succ_self 6) (.literal (.inl rfl))
      tokens := by
        rw [Lexed.all, tokens]
        rfl
      rank := Nat.le_of_ble_eq_true rfl
      folds := trivial }
  have row : UnaryRule.mk .minus .negation .integer .integer ∈ UnaryRule.table := by decide
  have resolved := @Resolver.unary_of_mem_table .empty (.single .minus '-' 0)
    (.literal (.integer ((Placed.decimal? (Lexeme.number n).text).getD 0))) _ row rfl rfl
  rw [evaluate_of_reads reads resolved, diagnostics, Lexeme.decimal?_number]
  rfl

variable {n}

theorem evaluate_toString {m : Int64} (same : m.toInt = n) :
    evaluate (toString n) = .value (.integer m) := by
  have inRange := (Lexeme.inRange_number_iff n).mpr (same ▸ m.toInt_le)
  rw [Lexeme.toString_eq]
  refine evaluate_lexeme (.inl rfl) inRange ?_
  show some (Value.integer ((Placed.decimal? (Lexeme.number n).text).getD 0)) = _
  rw [Lexeme.decimal?_number, ← same, narrow?_toInt, Option.getD_some]

theorem evaluate_minus {m : Int64} (opposite : m.toInt = -n)
    (small : n ≤ Int64.maxValue.toInt) : evaluate ("-" ++ toString n) = .value (.integer m) := by
  obtain ⟨k, decimal, same⟩ := Lexeme.decimal?_text_number small
  have inRange := (Lexeme.inRange_number_iff n).mpr small
  rw [Lexeme.decimal?_number] at decimal
  rw [Lexeme.toString_eq, evaluate_minus_number, Lexeme.outOfRange?_tokenAt 1 inRange, decimal,
    Option.getD_some, same, ← opposite, Value.ofExact, narrow?_toInt]
  rfl

theorem evaluate_minus_of_large (large : Int64.maxValue.toInt < n) :
    evaluate ("-" ++ toString n) =
      .rejected [.error ⟨1, (toString n).utf8ByteSize⟩ (.numberOutOfRange (toString n))] := by
  have outside : ¬ (Lexeme.number n).InRange := by
    rwa [Lexeme.inRange_number_iff, Int.not_le]
  rw [Lexeme.toString_eq, evaluate_minus_number, Lexeme.outOfRange?_tokenAt_of_not 1 outside,
    Text.utf8ByteSize_ofList]
  rfl

end

theorem evaluate_render_integer {m : Int64} (other : m ≠ Int64.minValue) :
    evaluate (Value.integer m).render = .value (.integer m) := by
  rw [Value.render_integer]
  by_cases sign : 0 ≤ m.toInt
  · rw [if_pos sign]
    exact evaluate_toString (Int.toNat_of_nonneg sign).symm
  · have size : ((-m.toInt).toNat : Int) = -m.toInt := Int.toNat_of_nonneg (by omega)
    have small : ((-m.toInt).toNat : Int) ≤ Int64.maxValue.toInt := by
      have low := m.le_toInt
      have distinct : m.toInt ≠ Int64.minValue.toInt := fun same => other (Int64.toInt_inj.mp same)
      rw [Int64.toInt_minValue] at distinct
      rw [Int64.toInt_maxValue]
      omega
    rw [if_neg sign]
    exact evaluate_minus (by omega) small

theorem evaluate_render_boolean (b : Bool) :
    evaluate (Value.boolean b).render = .value (.boolean b) := by
  have written : (Value.boolean b).render = String.ofList (Lexeme.truth b).text := by
    cases b <;> rfl
  have literal : (Lexeme.truth b).kind.IsLiteral := by
    cases b
    · exact .inr (.inr rfl)
    · exact .inr (.inl rfl)
  have noNumber : (Lexeme.truth b).kind ≠ .number := by
    cases b <;> decide
  have denotes :
      Placed.literal (Lexeme.truth b).kind (Lexeme.truth b).text = some (.boolean b) := by
    cases b <;> rfl
  rw [written]
  exact evaluate_lexeme literal (Lexeme.inRange_of_kind_ne noNumber) denotes

/-- What a value is written as evaluates to this value, but for the lowest integer. The text of that
one is rejected for its digits, which are a number out of range. -/
theorem evaluate_render (v : Value) :
    (evaluate v.render =
      if v = .integer Int64.minValue then
        .rejected [.error ⟨1, 19⟩ (.numberOutOfRange "9223372036854775808")]
      else .value v) ∧
    Span.Splits ⟨1, 19⟩ (Value.integer Int64.minValue).render "-" "9223372036854775808" "" := by
  have lowest : (Value.integer Int64.minValue).render = "-" ++ "9223372036854775808" := by
    decide +kernel
  refine ⟨?_, ⟨lowest, rfl, rfl⟩⟩
  by_cases same : v = .integer Int64.minValue
  · rw [if_pos same, same, lowest]
    exact evaluate_minus_of_large (n := 9223372036854775808) (by decide)
  · rw [if_neg same]
    cases v with
    | integer m => exact evaluate_render_integer fun lowest => same (congrArg _ lowest)
    | boolean b => exact evaluate_render_boolean b

end Analysis

end Reckon
