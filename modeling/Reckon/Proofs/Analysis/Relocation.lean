import Reckon.Proofs.Analysis.Gate
import Reckon.Proofs.Typed.Relocation

/-!
What becomes of a text does not depend on its layout. Two texts whose tokens are the same but for
their places have the same tree, typed expression, reports and outcome, but for the places.
-/

set_option autoImplicit false
set_option relaxedAutoImplicit false

namespace Reckon

def Outcome.relocate (move : Span → Span) : Outcome → Outcome
  | .value v => .value v
  | .rejected diagnostics => .rejected (diagnostics.map (.relocate move))
  | .failed failure => .failed (failure.relocate move)

def Token.content (token : Token) : Token.Kind × String :=
  (token.kind, token.text)

/-- The spans of one list of tokens go to those of another, and with them the empty places in front
of the tokens. -/
def Token.Moves (move : Span → Span) (source target : List Token) : Prop :=
  ∀ (i : Nat) (s t : Token), source[i]? = some s → target[i]? = some t →
    move s.span = t.span ∧ move (.emptyAt s.span.start) = .emptyAt t.span.start

/-- Moves a span to where the token that starts where it does went. -/
def Token.shift (source target : List Token) (span : Span) : Span :=
  let found := target[source.findIdx (·.span.start == span.start)]?
  { span with start := (found.map (·.span.start)).getD span.start }

/-- What is wrong with a token. -/
def Token.outOfRange? (token : Token) : Option Diagnostic :=
  if token.kind = .number ∧ Placed.decimal? token.text.toList = none then
    some (.error token.span (.numberOutOfRange token.text))
  else none

variable {move : Span → Span}

theorem Outcome.ofEval_relocate (result : Except Failure Value) :
    ofEval (result.mapError (.relocate move)) = (ofEval result).relocate move := by
  cases result <;> rfl

theorem Token.outOfRange?_relocate (token : Token) :
    (token.relocate move).outOfRange? = token.outOfRange?.map (.relocate move) := by
  by_cases outside : token.kind = .number ∧ Placed.decimal? token.text.toList = none
  · rw [outOfRange?, outOfRange?, if_pos outside]
    exact if_pos outside
  · rw [outOfRange?, outOfRange?, if_neg outside]
    exact if_neg outside

theorem Placed.diagnostic?_eq_bind {p : Placed} (noStray : ∀ c, p.piece ≠ .stray c) :
    p.diagnostic? = p.token?.bind Token.outOfRange? := by
  obtain ⟨start, piece⟩ := p
  cases piece with
  | blank c => rfl
  | stray c => exact absurd rfl (noStray c)
  | lexeme kind chars =>
    simp only [diagnostic?, problem?, token?, Option.bind_some, Token.outOfRange?,
      String.toList_ofList]
    split <;> rfl

namespace Lexed

variable {text : String}

theorem value_of_mem_all {token : Token} (member : token ∈ (ofText text).all) :
    token.value = Placed.literal token.kind token.text.toList := by
  rcases List.mem_append.mp member with inside | last
  · exact value_of_mem_tokens inside
  · obtain rfl := List.mem_singleton.mp last
    rfl

theorem length_of_mem_all {token : Token} (member : token ∈ (ofText text).all) :
    token.span.length = token.text.utf8ByteSize := by
  rcases List.mem_append.mp member with inside | last
  · obtain ⟨_, _, splits, -, -⟩ := longestMatch_of_mem_tokens inside
    exact splits.length
  · obtain rfl := List.mem_singleton.mp last
    rfl

theorem findIdx_start {i : Nat} {token : Token} (found : (ofText text).all[i]? = some token) :
    (ofText text).all.findIdx (·.span.start == token.span.start) = i := by
  obtain ⟨bound, rfl⟩ := List.getElem?_eq_some_iff.mp found
  refine (List.findIdx_eq bound).mpr ⟨by simp, ?_⟩
  intro j before
  have increasing := List.pairwise_iff_getElem.mp (pairwise_start_all text) j i (by omega) bound
    before
  simp only [beq_eq_false_iff_ne, ne_eq]
  omega

theorem not_bad_of_clean (clean : (ofText text).diagnostics = []) (span : Span) (c : Char) :
    ¬ (ofText text).Bad text span c := by
  intro bad
  have reported := mem_diagnostics_iff.mpr (.inl ⟨span, c, bad, rfl⟩)
  rw [clean] at reported
  cases reported

theorem diagnostics_of_noBad (noBad : ∀ span c, ¬ (ofText text).Bad text span c) :
    (ofText text).diagnostics = (ofText text).tokens.filterMap Token.outOfRange? := by
  have noStray : ∀ p ∈ Placed.ofText text, ∀ c, p.piece ≠ .stray c := by
    intro p member c stray
    exact noBad p.span c (bad_iff.mpr ⟨p, member, stray, rfl⟩)
  simp only [ofText, List.filterMap_filterMap]
  generalize Placed.ofText text = placed at noStray
  induction placed with
  | nil => rfl
  | cons p ps ih =>
    obtain ⟨here, later⟩ := List.forall_mem_cons.mp noStray
    rw [List.filterMap_cons, List.filterMap_cons, Placed.diagnostic?_eq_bind here, ih later]

end Lexed

section

variable {a b : String}
  (same : (Lexed.ofText a).all.map Token.content = (Lexed.ofText b).all.map Token.content)

include same

namespace Lexed

theorem moves_shift :
    Token.Moves (Token.shift (ofText a).all (ofText b).all) (ofText a).all (ofText b).all := by
  intro i s t source target
  have content : s.content = t.content := by
    have there := congrArg (·[i]?) same
    simpa [source, target] using there
  have length : s.span.length = t.span.length := by
    rw [length_of_mem_all (List.mem_of_getElem? source),
      length_of_mem_all (List.mem_of_getElem? target)]
    exact congrArg (·.2.utf8ByteSize) content
  have place := findIdx_start source
  constructor
  · simp [Token.shift, place, target, length]
  · simp [Token.shift, Span.emptyAt, place, target]

variable (moves : Token.Moves move (ofText a).all (ofText b).all)

include moves

theorem all_relocate : (ofText b).all = (ofText a).all.map (.relocate move) := by
  apply List.ext_getElem?
  intro i
  have there := congrArg (·[i]?) same
  simp only [List.getElem?_map] at there ⊢
  cases source : (ofText a).all[i]? with
  | none => simpa [source] using there.symm
  | some s =>
    obtain ⟨t, target, content⟩ : ∃ t, (ofText b).all[i]? = some t ∧ t.content = s.content := by
      simpa [source, Option.map_eq_some_iff] using there.symm
    obtain ⟨kind, text⟩ := Prod.mk.inj content
    -- The value of a token is a function of its kind and text, so that it need not be compared.
    have value : t.value = s.value := by
      rw [value_of_mem_all (List.mem_of_getElem? target),
        value_of_mem_all (List.mem_of_getElem? source), kind, text]
    have span := (moves i s t source target).1
    rw [target, Option.map_some, Option.some.injEq]
    calc t = ⟨t.kind, t.span, t.text, t.value⟩ := rfl
      _ = ⟨s.kind, move s.span, s.text, s.value⟩ := by rw [kind, text, value, span]

theorem tokens_relocate :
    (ofText b).tokens = (ofText a).tokens.map (.relocate move) ∧
      (ofText b).endOfInput = (ofText a).endOfInput.relocate move := by
  have whole : (ofText b).all = (ofText a).all.map (.relocate move) := all_relocate same moves
  simp only [all, List.map_append, List.map_cons, List.map_nil] at whole
  obtain ⟨tokens, last⟩ := List.append_inj' whole rfl
  exact ⟨tokens, List.singleton_inj.mp last⟩

theorem aligned_of_moves : ∀ token ∈ (ofText a).all, token.Aligned move := by
  intro s member
  obtain ⟨i, source⟩ := List.getElem?_of_mem member
  have target : (ofText b).all[i]? = some (s.relocate move) := by
    rw [all_relocate same moves, List.getElem?_map, source, Option.map_some]
  exact (moves i s _ source target).2

end Lexed

namespace Analysis

variable (moves : Token.Moves move (Lexed.ofText a).all (Lexed.ofText b).all)

include moves

theorem parse_relocate :
    Parse.ofLexed (.ofText b) = (Parse.ofLexed (.ofText a)).relocate move := by
  obtain ⟨tokens, endOfInput⟩ := Lexed.tokens_relocate same moves
  exact Parse.ofLexed_relocate tokens endOfInput (Lexed.aligned_of_moves same moves)

theorem resolve_relocate :
    Resolver.empty.resolve (Tree.ofText b).root =
      ((Resolver.empty.resolve (Tree.ofText a).root).1.relocate move,
        (Resolver.empty.resolve (Tree.ofText a).root).2.relocate move) := by
  have root : (Tree.ofText b).root = (Tree.ofText a).root.relocate move :=
    congrArg Parse.root (parse_relocate same moves)
  rw [root]
  exact Resolver.resolve_relocate .empty _

variable (noBadA : ∀ span c, ¬ (Lexed.ofText a).Bad a span c)
  (noBadB : ∀ span c, ¬ (Lexed.ofText b).Bad b span c)

include noBadA noBadB

theorem diagnostics_relocate :
    (ofText b).diagnostics = (ofText a).diagnostics.map (.relocate move) := by
  obtain ⟨tokens, -⟩ := Lexed.tokens_relocate same moves
  have lexed : (Lexed.ofText b).diagnostics =
      (Lexed.ofText a).diagnostics.map (.relocate move) := by
    rw [Lexed.diagnostics_of_noBad noBadA, Lexed.diagnostics_of_noBad noBadB, tokens,
      List.filterMap_map, List.map_filterMap]
    exact congrArg (List.filterMap · _) (funext Token.outOfRange?_relocate)
  have parsed := congrArg Parse.diagnostics (parse_relocate same moves)
  have resolved := congrArg (·.2.reported) (resolve_relocate same moves)
  simp only [ofText, List.map_append]
  exact congr (congrArg _ (congr (congrArg _ lexed) parsed)) resolved

theorem evaluate_relocate : evaluate b = (evaluate a).relocate move := by
  have diagnostics := diagnostics_relocate same moves noBadA noBadB
  have typed : (ofText b).typed = (ofText a).typed.relocate move :=
    congrArg Prod.fst (resolve_relocate same moves)
  unfold evaluate outcome
  rw [diagnostics, typed, Typed.eval_relocate]
  simp only [List.map_eq_nil_iff]
  split
  next => exact Outcome.ofEval_relocate _
  next => rfl

end Analysis

end

namespace Analysis

/-- If the tokens of two texts have the same kinds and texts, then there is a way to move the places
of one to those of the other, and any such way turns the tree of the one into the tree of the
other, and so the typed expression and what is reported of order and of types. If both texts
consist of tokens and blanks, then the outcomes too are the same but for their places. -/
theorem relocated_of_content_eq (a b : String)
    (same : (Lexed.ofText a).all.map Token.content = (Lexed.ofText b).all.map Token.content) :
    (∃ move, Token.Moves move (Lexed.ofText a).all (Lexed.ofText b).all) ∧
    ∀ move, Token.Moves move (Lexed.ofText a).all (Lexed.ofText b).all →
      (Tree.ofText b).root = (Tree.ofText a).root.relocate move ∧
      (Tree.ofText b).endOfInput = (Tree.ofText a).endOfInput.relocate move ∧
      (ofText b).parse.diagnostics = (ofText a).parse.diagnostics.map (.relocate move) ∧
      (ofText b).typed = (ofText a).typed.relocate move ∧
      (Resolver.empty.resolve (Tree.ofText b).root).2.reported =
        (Resolver.empty.resolve (Tree.ofText a).root).2.reported.map (.relocate move) ∧
      ((∀ span c, ¬ (Lexed.ofText a).Bad a span c) →
        (∀ span c, ¬ (Lexed.ofText b).Bad b span c) →
        evaluate b = (evaluate a).relocate move) := by
  refine ⟨⟨_, Lexed.moves_shift same⟩, fun move moves => ?_⟩
  have parse := parse_relocate same moves
  have resolved := resolve_relocate same moves
  refine ⟨congrArg Parse.root parse, ?_, congrArg Parse.diagnostics parse, ?_, ?_, ?_⟩
  · exact (Lexed.tokens_relocate same moves).2
  · exact congrArg Prod.fst resolved
  · exact congrArg (·.2.reported) resolved
  · exact evaluate_relocate same moves

theorem relocated_of_content_eq_spaced :
    (Lexed.ofText "-(8/0").all.map Token.content =
      (Lexed.ofText " - ( 8\n/0 ").all.map Token.content ∧
    ∃ move, Token.Moves move (Lexed.ofText "-(8/0").all (Lexed.ofText " - ( 8\n/0 ").all ∧
      (Tree.ofText " - ( 8\n/0 ").root = (Tree.ofText "-(8/0").root.relocate move ∧
      evaluate " - ( 8\n/0 " = (evaluate "-(8/0").relocate move := by
  have same : (Lexed.ofText "-(8/0").all.map Token.content =
      (Lexed.ofText " - ( 8\n/0 ").all.map Token.content := by
    decide +kernel
  obtain ⟨⟨move, moves⟩, relocated⟩ := relocated_of_content_eq _ _ same
  obtain ⟨root, -, -, -, -, outcome⟩ := relocated move moves
  refine ⟨same, move, moves, root, outcome ?_ ?_⟩
  · exact Lexed.not_bad_of_clean (by decide +kernel)
  · exact Lexed.not_bad_of_clean (by decide +kernel)

end Analysis

end Reckon
