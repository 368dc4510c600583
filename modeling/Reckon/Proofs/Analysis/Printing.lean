import Reckon.Proofs.Analysis.Relocation
import Reckon.Proofs.Token.Munch

/-!
Printing the tokens of a text. The text of a token is read as this token wherever it stands between
blanks, also if the token touched its neighbours before. So a text whose tokens are printed with
blanks between them has the same tokens, numbers out of range included, and the same outcome.
-/

set_option autoImplicit false
set_option relaxedAutoImplicit false

namespace Reckon

theorem Token.Kind.LongestMatch.cut_eq {kind : Token.Kind} {text rest : List Char}
    (longest : kind.LongestMatch text rest) : Piece.cut text = [.lexeme kind text] := by
  have leads : Piece.Leads [] (.lexeme kind text) :=
    { longest with
      longest := by
        intro other more nonempty front
        exact absurd (List.prefix_nil.mp front) nonempty }
  have cut := Piece.cut_of_leads leads
  rwa [List.append_nil, Piece.cut] at cut

namespace Lexed

theorem cut_of_mem_tokens {text : String} {token : Token} (member : token ∈ (ofText text).tokens) :
    Piece.cut token.text.toList = [.lexeme token.kind token.text.toList] := by
  obtain ⟨_, _, -, -, longest⟩ := longestMatch_of_mem_tokens member
  exact longest.cut_eq

def lexemes (text : String) : List Lexeme :=
  (ofText text).tokens.pmap (fun token cut => ⟨token.kind, token.text.toList, cut⟩)
    fun _ member => cut_of_mem_tokens member

end Lexed

/-- The tokens of a text, with blanks around and between them. -/
def Layout.print (layout : Layout) (text : String) : String :=
  layout.text (Lexed.lexemes text)

def Diagnostic.isOfNumber (d : Diagnostic) : Bool :=
  match d.problem with
  | .numberOutOfRange _ => true
  | _ => false

namespace Lexed

/-- What is reported of the numbers of a text. -/
def numberReports (lexed : Lexed) : List Diagnostic :=
  lexed.diagnostics.filter Diagnostic.isOfNumber

theorem numberReports_ofText (text : String) :
    (ofText text).numberReports = (ofText text).tokens.filterMap Token.outOfRange? := by
  have each (p : Placed) :
      p.diagnostic?.filter Diagnostic.isOfNumber = p.token?.bind Token.outOfRange? := by
    obtain ⟨start, piece⟩ := p
    cases piece with
    | blank c => rfl
    | lexeme kind chars =>
      rw [← Placed.diagnostic?_eq_bind (by simp)]
      simp only [Placed.diagnostic?, Placed.problem?]
      split <;> rfl
    | stray c => rfl
  simp only [numberReports, ofText, List.filter_filterMap, List.filterMap_filterMap]
  exact congrArg (List.filterMap · _) (funext each)

theorem badCharacters_eq_nil_iff {text : String} :
    (ofText text).badCharacters = [] ↔ ∀ span c, ¬ (ofText text).Bad text span c := by
  rw [badCharacters_ofText, List.filterMap_eq_nil_iff]
  constructor
  · intro nothing span c bad
    obtain ⟨p, member, stray, -⟩ := bad_iff.mp bad
    have reported := Placed.stray?_eq_some_iff.mpr ⟨c, stray, rfl⟩
    rw [nothing p member] at reported
    cases reported
  · intro noBad p member
    cases found : p.stray? with
    | none => rfl
    | some d =>
      obtain ⟨c, stray, -⟩ := Placed.stray?_eq_some_iff.mp found
      exact absurd (bad_iff.mpr ⟨p, member, stray, rfl⟩) (noBad p.span c)

end Lexed

namespace Layout

variable (layout : Layout) (text : String)

theorem tokens_print :
    (Lexed.ofText (layout.print text)).tokens.map (fun t => (t.kind, t.text, t.value)) =
      (Lexed.ofText text).tokens.map fun t => (t.kind, t.text, t.value) := by
  have read : (Lexed.ofText (layout.print text)).tokens.map (fun t => (t.kind, t.text, t.value)) =
      (Lexed.lexemes text).map fun l =>
        (l.kind, String.ofList l.text, Placed.literal l.kind l.text) := by
    rw [print, layout.tokens_text]
    exact Lexeme.map_place (fun _ _ => rfl) _ _ _
  rw [read, Lexed.lexemes, List.map_pmap,
    ← List.pmap_eq_map fun _ member => Lexed.cut_of_mem_tokens member]
  refine List.pmap_congr_left _ fun token member _ _ => ?_
  rw [String.ofList_toList, Lexed.value_of_mem_tokens member]

theorem badCharacters_print : (Lexed.ofText (layout.print text)).badCharacters = [] := by
  refine Lexed.badCharacters_eq_nil_iff.mpr fun span c bad => ?_
  obtain ⟨p, member, stray, -⟩ := Lexed.bad_iff.mp bad
  exact layout.noStray_text _ member c stray

theorem content_print :
    (Lexed.ofText text).all.map Token.content =
      (Lexed.ofText (layout.print text)).all.map Token.content := by
  have tokens := congrArg (List.map fun t => (t.1, t.2.1)) (layout.tokens_print text)
  simp only [List.map_map] at tokens
  simp only [Lexed.all, List.map_append]
  exact congrArg (· ++ _) tokens.symm

theorem message_numberReports_print :
    (Lexed.ofText (layout.print text)).numberReports.map Diagnostic.message =
      (Lexed.ofText text).numberReports.map Diagnostic.message := by
  have same := layout.content_print text
  obtain ⟨tokens, -⟩ := Lexed.tokens_relocate same (Lexed.moves_shift same)
  rw [Lexed.numberReports_ofText, Lexed.numberReports_ofText, tokens, List.filterMap_map,
    List.map_filterMap, List.map_filterMap]
  refine congrArg (List.filterMap · _) (funext fun token => ?_)
  rw [Function.comp_apply, Token.outOfRange?_relocate, Option.map_map]
  rfl

end Layout

theorem Outcome.relocate_eq_value_iff {move : Span → Span} {outcome : Outcome} {v : Value} :
    outcome.relocate move = .value v ↔ outcome = .value v := by
  cases outcome <;> simp [relocate]

namespace Analysis

/-- The tokens of a text, printed with blanks between them, are read back with the same kinds, texts
and values; nothing printed is stray, and the same is said of the numbers. If nothing is wrong with
the text, then the outcome of what is printed is the same but for places, and so is a value. -/
theorem print_read_back (layout : Layout) (text : String) :
    (Lexed.ofText (layout.print text)).tokens.map (fun t => (t.kind, t.text, t.value)) =
      (Lexed.ofText text).tokens.map (fun t => (t.kind, t.text, t.value)) ∧
    (Lexed.ofText (layout.print text)).badCharacters = [] ∧
    (Lexed.ofText (layout.print text)).numberReports.map Diagnostic.message =
      (Lexed.ofText text).numberReports.map Diagnostic.message ∧
    ((ofText text).diagnostics = [] →
      (∀ v : Value, evaluate (layout.print text) = .value v ↔ evaluate text = .value v) ∧
      ∃ move, Token.Moves move (Lexed.ofText text).all (Lexed.ofText (layout.print text)).all ∧
        evaluate (layout.print text) = (evaluate text).relocate move) := by
  have nothing := layout.badCharacters_print text
  refine ⟨layout.tokens_print text, nothing, layout.message_numberReports_print text, ?_⟩
  intro clean
  have same := layout.content_print text
  have moves := Lexed.moves_shift same
  have noBad := Lexed.not_bad_of_clean (clean_of_diagnostics_eq_nil clean).1
  have moved := evaluate_relocate same moves noBad (Lexed.badCharacters_eq_nil_iff.mp nothing)
  refine ⟨fun v => ?_, _, moves, moved⟩
  rw [moved]
  exact Outcome.relocate_eq_value_iff

theorem print_read_back_touching :
    (ofText "-(8-9)*2!=3").diagnostics = [] ∧
    Layout.spaced.print "-(8-9)*2!=3" = "- ( 8 - 9 ) * 2 != 3" ∧
    evaluate "- ( 8 - 9 ) * 2 != 3" = .value (.boolean true) := by
  have clean : (ofText "-(8-9)*2!=3").diagnostics = [] := by decide +kernel
  have printed : Layout.spaced.print "-(8-9)*2!=3" = "- ( 8 - 9 ) * 2 != 3" := by decide +kernel
  have value : evaluate "-(8-9)*2!=3" = .value (.boolean true) := by decide +kernel
  obtain ⟨-, -, -, outcome⟩ := print_read_back .spaced "-(8-9)*2!=3"
  refine ⟨clean, printed, ?_⟩
  rw [← printed]
  exact ((outcome clean).1 _).mpr value

end Analysis

end Reckon
