import Reckon.Proofs.Typed.Origin

/-!
Nothing that stands in for something missing gets into a result. A text with anything wrong is
rejected with all that is wrong; any other has the literals that are written in it, and fails, if
it does, at an operator that is written in it.
-/

set_option autoImplicit false
set_option relaxedAutoImplicit false

namespace Reckon

namespace Lexed

variable {text : String}

theorem slices_spelling {token : Token} (member : token ∈ (ofText text).tokens)
    (fixed : token.kind.spelling ≠ []) :
    token.span.Slices text (String.ofList token.kind.spelling) := by
  obtain ⟨before, after, splits, -, longest⟩ := longestMatch_of_mem_tokens member
  have spelled : token.text = String.ofList token.kind.spelling := by
    rw [← longest.spelled.eq_spelling fixed, String.ofList_toList]
  rw [spelled] at splits
  exact ⟨before, after, splits⟩

theorem decimal_le_of_clean (clean : (ofText text).diagnostics = []) {token : Token}
    (member : token ∈ (ofText text).tokens) (number : token.kind = .number) :
    token.decimal ≤ Int64.maxValue.toInt := by
  apply Int.not_lt.mp
  intro outside
  have reported := mem_diagnostics_iff.mpr (.inr ⟨token, member, number, outside, rfl⟩)
  rw [clean] at reported
  cases reported

theorem denotation?_of_clean (clean : (ofText text).diagnostics = []) {token : Token}
    (member : token ∈ (ofText text).tokens) (literal : token.kind.IsLiteral) :
    ∃ value, token.value = some value ∧ token.denotation? = some value.exact := by
  rcases literal with kind | kind | kind
  · have inside := decimal_le_of_clean clean member kind
    obtain ⟨n, value, same⟩ := (value_of_number member kind).2 inside
    refine ⟨.integer n, value, ?_⟩
    simp only [Token.denotation?, kind, Value.exact, same]
  · refine ⟨.boolean true, ?_, by simp only [Token.denotation?, kind, Value.exact]⟩
    rw [value_of_mem_tokens member, kind, Placed.literal]
  · refine ⟨.boolean false, ?_, by simp only [Token.denotation?, kind, Value.exact]⟩
    rw [value_of_mem_tokens member, kind, Placed.literal]

end Lexed

namespace Outcome

theorem ofEval_ne_rejected (result : Except Failure Value) (diagnostics : List Diagnostic) :
    ofEval result ≠ .rejected diagnostics := by
  cases result with
  | ok _ => exact Outcome.noConfusion
  | error _ => exact Outcome.noConfusion

theorem eq_error_of_ofEval {result : Except Failure Value} {failure : Failure}
    (failed : ofEval result = .failed failure) : result = .error failure := by
  cases result with
  | ok _ => cases failed
  | error _ =>
    cases failed
    rfl

end Outcome

private theorem Token.Kind.spelling_of_arithmetic :
    ∀ kind ∈ [Token.Kind.plus, .minus, .star, .slash],
      kind.spelling ≠ [] ∧ String.ofList kind.spelling ∈ ["+", "-", "*", "/"] := by
  decide

namespace Analysis

variable {text : String}

theorem clean_of_diagnostics_eq_nil (clean : (ofText text).diagnostics = []) :
    (Lexed.ofText text).diagnostics = [] ∧ (Parse.ofLexed (.ofText text)).diagnostics = [] ∧
      (Resolver.empty.resolve (Tree.ofText text).root).2.reported = [] := by
  have parts : (Lexed.ofText text).diagnostics ++ (Parse.ofLexed (.ofText text)).diagnostics ++
      (Resolver.empty.resolve (Tree.ofText text).root).2.reported = [] := clean
  simpa [and_assoc] using parts

theorem reads_of_clean (clean : (ofText text).diagnostics = []) :
    (Tree.ofText text).root.Canonical ∧
      (Tree.ofText text).root.tokens = (Lexed.ofText text).tokens := by
  obtain ⟨-, parsed, -⟩ := clean_of_diagnostics_eq_nil clean
  have reads := @Parse.reads_root_of_clean (.ofText text) rfl parsed
  exact ⟨reads.canonical, List.append_cancel_right reads.tokens⟩

theorem literals_of_clean (clean : (ofText text).diagnostics = []) :
    (ofText text).typed.literals.map Value.exact =
      (Lexed.ofText text).tokens.filterMap Token.denotation? := by
  obtain ⟨lexed, -, resolved⟩ := clean_of_diagnostics_eq_nil clean
  obtain ⟨canonical, tokens⟩ := reads_of_clean clean
  have sound : ∀ token ∈ (Tree.ofText text).root.tokens, token.kind.IsLiteral →
      ∃ value, token.value = some value ∧ token.denotation? = some value.exact := by
    intro token member literal
    rw [tokens] at member
    exact Lexed.denotation?_of_clean lexed member literal
  rw [← tokens]
  exact Resolver.literals_resolve canonical sound resolved

theorem fault_of_clean (clean : (ofText text).diagnostics = []) {failure : Failure}
    (failed : (ofText text).typed.eval = .error failure) :
    ∃ kind, failure.IsFaultOf kind ∧
      (kind.spelling ≠ [] → failure.span.Slices text (String.ofList kind.spelling)) := by
  have among := (Resolver.empty.wellTyped_resolve (Tree.ofText text).root).isAmong_eval
  change Failure.IsAmong _ (ofText text).typed.eval at among
  rw [failed] at among
  obtain ⟨kind, member, fault⟩ := among
  obtain ⟨token, inside, rfl, place⟩ := Resolver.exists_mem_tokens member
  rw [(reads_of_clean clean).2] at inside
  refine ⟨token.kind, fault, fun fixed => ?_⟩
  rw [← place]
  exact Lexed.slices_spelling inside fixed

theorem evaluate_of_clean (clean : (ofText text).diagnostics = []) :
    evaluate text = .ofEval (ofText text).typed.eval :=
  if_pos clean

theorem evaluate_eq_rejected_iff (diagnostics : List Diagnostic) :
    evaluate text = .rejected diagnostics ↔
      diagnostics = (ofText text).diagnostics ∧ diagnostics ≠ [] := by
  by_cases clean : (ofText text).diagnostics = []
  · rw [evaluate_of_clean clean, clean]
    constructor
    · intro rejected
      exact absurd rejected (Outcome.ofEval_ne_rejected _ _)
    · rintro ⟨rfl, wrong⟩
      exact absurd rfl wrong
  · have rejected : evaluate text = .rejected (ofText text).diagnostics := if_neg clean
    rw [rejected, Outcome.rejected.injEq]
    constructor
    · rintro rfl
      exact ⟨rfl, clean⟩
    · rintro ⟨rfl, -⟩
      rfl

/-- A text is rejected exactly if something is wrong with it, and then with all of that: its
characters, then their order, then the types. If nothing is, then the literals of the typed
expression are those that are written, one for one, and a failure is a division by zero at a slash
or an overflow at a sign of arithmetic. -/
theorem rejected_iff_and_sound_of_clean (text : String) :
    (ofText text).diagnostics =
      (Lexed.ofText text).diagnostics ++ (Parse.ofLexed (.ofText text)).diagnostics ++
        (Resolver.empty.resolve (Tree.ofText text).root).2.reported ∧
    (∀ diagnostics : List Diagnostic, evaluate text = .rejected diagnostics ↔
      diagnostics = (ofText text).diagnostics ∧ diagnostics ≠ []) ∧
    ((ofText text).diagnostics = [] →
      (ofText text).typed.literals.map Value.exact =
        (Lexed.ofText text).tokens.filterMap Token.denotation? ∧
      (∀ token ∈ (Lexed.ofText text).tokens, token.kind = .number →
        token.decimal ≤ Int64.maxValue.toInt) ∧
      ∀ failure : Failure, evaluate text = .failed failure →
        (∃ span : Span, failure = .divisionByZero span ∧ span.Slices text "/") ∨
        ∃ span : Span, failure = .overflow span ∧
          ∃ sign ∈ ["+", "-", "*", "/"], span.Slices text sign) := by
  refine ⟨rfl, evaluate_eq_rejected_iff, fun clean => ⟨literals_of_clean clean, ?_, ?_⟩⟩
  · intro token member number
    exact Lexed.decimal_le_of_clean (clean_of_diagnostics_eq_nil clean).1 member number
  · intro failure failed
    rw [evaluate_of_clean clean] at failed
    obtain ⟨kind, fault, slices⟩ := fault_of_clean clean (Outcome.eq_error_of_ofEval failed)
    cases failure with
    | divisionByZero span =>
      obtain rfl : kind = .slash := fault
      exact .inl ⟨span, rfl, slices (by decide)⟩
    | overflow span =>
      obtain ⟨fixed, sign⟩ := Token.Kind.spelling_of_arithmetic kind fault
      exact .inr ⟨span, rfl, _, sign, slices fixed⟩
    | invalidOperand _ _ _ => exact fault.elim
    | invalidOperands _ _ _ _ => exact fault.elim

end Analysis

end Reckon
