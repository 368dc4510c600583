import Reckon.Proofs.Analysis.Relocation
import Reckon.Proofs.Node.Parentheses
import Reckon.Proofs.Token.Seam

/-!
Texts in parentheses. A text with nothing wrong, put into parentheses, is the same expression a few
bytes further on, up to the last level of nesting that there is room for; and each parenthesis that
is not closed is reported once.
-/

set_option autoImplicit false
set_option relaxedAutoImplicit false

namespace Reckon

/-- A text behind so many opening parentheses and before so many closing ones. -/
def Text.parenthesize (opened closed : Nat) (text : String) : String :=
  String.ofList (List.replicate opened '(') ++
    (text ++ String.ofList (List.replicate closed ')'))

def Token.single (kind : Kind) (c : Char) (start : Nat) : Token :=
  ⟨kind, ⟨start, 1⟩, String.singleton c, none⟩

/-- What closes the parentheses behind an offset, numbered from the inside: so many tokens, one
after another, and then nothing but what is invented behind them. -/
def Token.closing (start written i : Nat) : Token :=
  if i < written then .single .closeParen ')' (start + i)
  else .invented .closeParen (start + written)

/-- A character of one byte that is a token without a value, whatever follows it. -/
structure Piece.Single (kind : Token.Kind) (c : Char) : Prop where
  first : ∀ cs, first c cs = .lexeme kind [c]
  size : c.utf8Size = 1
  value : Placed.literal kind [c] = none

namespace Piece

private theorem first_eq_alone {c : Char} (noBlank : isBlank c = false)
    (noDigit : c.isDigit = false) (noWord : startsWord c = false)
    (noPair : ∀ d, double? c d = none) (cs : List Char) : first c cs = alone c := by
  have symbol : symbol c cs = alone c := by
    cases cs with
    | nil => rfl
    | cons d ds => simp only [Piece.symbol, noPair]
  simp [Piece.first, noBlank, noDigit, noWord, symbol]

theorem single_openParen : Single .openParen '(' where
  first := first_eq_alone rfl rfl rfl fun d => by simp [double?]
  size := rfl
  value := rfl

theorem single_closeParen : Single .closeParen ')' where
  first := first_eq_alone rfl rfl rfl fun d => by simp [double?]
  size := rfl
  value := rfl

theorem single_minus : Single .minus '-' where
  first := first_eq_alone rfl rfl rfl fun d => by simp [double?]
  size := rfl
  value := rfl

theorem stops_closeParen : Stops ')' :=
  ⟨rfl, rfl, fun c => by simp [double?]⟩

namespace Single

variable {kind : Token.Kind} {c : Char} (single : Single kind c)

include single

theorem cut_replicate_append (n : Nat) (rest : List Char) :
    cut (List.replicate n c ++ rest) = List.replicate n (.lexeme kind [c]) ++ cut rest := by
  induction n with
  | zero => rfl
  | succ n ih =>
    rw [List.replicate_succ, List.cons_append, cut, single.first, chars, List.length_singleton,
      List.drop_one, List.tail_cons, ih]
    rfl

theorem cut_replicate (n : Nat) :
    cut (List.replicate n c) = List.replicate n (.lexeme kind [c]) := by
  have whole := single.cut_replicate_append n []
  rwa [List.append_nil, cut, List.append_nil] at whole

theorem run_replicate (start n : Nat) :
    Placed.run start (List.replicate n (.lexeme kind [c])) =
      (List.range n).map fun i => ⟨start + i, .lexeme kind [c]⟩ := by
  have size : (lexeme kind [c]).byteSize = 1 := single.size
  induction n generalizing start with
  | zero => rfl
  | succ n ih =>
    rw [List.replicate_succ, Placed.run, size, ih, List.range_succ_eq_map, List.map_cons,
      List.map_map]
    simp only [Function.comp_def, Nat.add_assoc, Nat.add_comm 1, Nat.add_zero]

theorem token?_eq (start : Nat) :
    (Placed.mk start (.lexeme kind [c])).token? = some (.single kind c start) := by
  simp [Placed.token?, Placed.span, byteSize, chars, Text.byteSize, single.size, single.value,
    Token.single]

theorem diagnostic?_eq (start : Nat) :
    (Placed.mk start (.lexeme kind [c])).diagnostic? = none := by
  have noNumber : kind ≠ .number := by
    rintro rfl
    cases single.value
  simp [Placed.diagnostic?, Placed.problem?, noNumber]

theorem ofText_replicate (n : Nat) :
    (Lexed.ofText (String.ofList (List.replicate n c))).tokens =
        (List.range n).map (.single kind c) ∧
      (Lexed.ofText (String.ofList (List.replicate n c))).diagnostics = [] := by
  have placed : Placed.ofText (String.ofList (List.replicate n c)) =
      (List.range n).map fun i => ⟨i, .lexeme kind [c]⟩ := by
    rw [Placed.ofText, String.toList_ofList, single.cut_replicate, single.run_replicate]
    simp only [Nat.zero_add]
  simp only [Lexed.ofText, placed, List.filterMap_map]
  constructor
  · have each : (Placed.token? ∘ fun i => ⟨i, .lexeme kind [c]⟩) = some ∘ Token.single kind c :=
      funext single.token?_eq
    rw [each, List.filterMap_eq_map]
  · exact List.filterMap_eq_nil_iff.mpr fun i _ => single.diagnostic?_eq i

theorem utf8ByteSize_replicate (n : Nat) :
    (String.ofList (List.replicate n c)).utf8ByteSize = n := by
  rw [Text.utf8ByteSize_ofList]
  induction n with
  | zero => rfl
  | succ n ih => rw [List.replicate_succ, Text.byteSize, single.size, ih, Nat.add_comm]

end Single

end Piece

theorem Text.utf8ByteSize_parenthesize (k j : Nat) (text : String) :
    (parenthesize k j text).utf8ByteSize = k + text.utf8ByteSize + j := by
  rw [parenthesize, String.utf8ByteSize_append, String.utf8ByteSize_append,
    Piece.single_openParen.utf8ByteSize_replicate, Piece.single_closeParen.utf8ByteSize_replicate,
    Nat.add_assoc]

theorem Node.rank_relocate (move : Span → Span) (node : Node) :
    (node.relocate move).rank = node.rank := by
  induction node with
  | literal _ _ => rfl
  | unary _ _ ih => simp only [relocate, rank, ih]
  | binary _ _ _ ihl ihr => simp only [relocate, rank, ihl, ihr]
  | group _ _ _ ih => simp only [relocate, rank, ih]

theorem Resolver.resolve_parenthesize (r : Resolver) (node : Node) (closing : Nat → Token)
    (openings : List Token) : r.resolve (node.parenthesize closing openings) = r.resolve node := by
  induction openings with
  | nil => rfl
  | cons opening more ih => exact ih

namespace Lexed

variable (k j : Nat) (text : String)

theorem ofText_parenthesize :
    (ofText (Text.parenthesize k j text)).tokens =
      (List.range k).map (.single .openParen '(') ++
        ((ofText text).tokens.map (.relocate (.shift k)) ++
          (List.range j).map fun i => .single .closeParen ')' (k + text.utf8ByteSize + i)) ∧
    (ofText (Text.parenthesize k j text)).diagnostics =
      (ofText text).diagnostics.map (.relocate (.shift k)) := by
  have front (rest : List Char) :
      Piece.cut ((String.ofList (List.replicate k '(')).toList ++ rest) =
        Piece.cut (String.ofList (List.replicate k '(')).toList ++ Piece.cut rest := by
    rw [String.toList_ofList, Piece.single_openParen.cut_replicate_append,
      Piece.single_openParen.cut_replicate]
  have back : Piece.cut (text.toList ++ (String.ofList (List.replicate j ')')).toList) =
      Piece.cut text.toList ++ Piece.cut (String.ofList (List.replicate j ')')).toList := by
    rw [String.toList_ofList]
    cases j with
    | zero => simp [Piece.cut]
    | succ j => exact Piece.cut_append Piece.stops_closeParen _ _
  have size := Piece.single_openParen.utf8ByteSize_replicate k
  obtain ⟨openings, noneFront⟩ := Piece.single_openParen.ofText_replicate k
  obtain ⟨closings, noneBack⟩ := Piece.single_closeParen.ofText_replicate j
  have moved (i : Nat) : ((Token.single .closeParen ')' i).relocate
      (.shift text.utf8ByteSize)).relocate (.shift k) =
        .single .closeParen ')' (k + text.utf8ByteSize + i) := by
    have place : i + text.utf8ByteSize + k = k + text.utf8ByteSize + i := by omega
    simp only [Token.relocate, Token.single, Span.shift, place]
  constructor
  · rw [Text.parenthesize, tokens_append (front _), tokens_append back, size, openings, closings]
    simp only [List.map_append, List.map_map, Function.comp_def, moved]
  · rw [Text.parenthesize, diagnostics_append (front _), diagnostics_append back, size, noneFront,
      noneBack, List.map_nil, List.append_nil, List.nil_append]

end Lexed

namespace Analysis

variable {text : String}

theorem reads_relocate_of_clean (clean : (ofText text).diagnostics = []) (k : Nat) :
    ((Tree.ofText text).root.relocate (.shift k)).Canonical ∧
      ((Tree.ofText text).root.relocate (.shift k)).FoldsWithin maxNesting ∧
      ((Tree.ofText text).root.relocate (.shift k)).tokens =
        (Lexed.ofText text).tokens.map (.relocate (.shift k)) := by
  obtain ⟨-, parsed, -⟩ := clean_of_diagnostics_eq_nil clean
  let moved : Lexed := ⟨(Lexed.ofText text).tokens.map (.relocate (.shift k)),
    (Lexed.ofText text).endOfInput.relocate (.shift k), []⟩
  have same : Parse.ofLexed moved = (Parse.ofLexed (.ofText text)).relocate (.shift k) :=
    Parse.ofLexed_relocate rfl rfl fun token _ => token.aligned_shift k
  have nothing : (Parse.ofLexed moved).diagnostics = [] := by
    rw [same, Parse.relocate, parsed, List.map_nil]
  have reads := @Parse.reads_root_of_clean moved rfl nothing
  rw [same] at reads
  exact ⟨reads.canonical, reads.folds, List.append_cancel_right reads.tokens⟩

section

variable {k j : Nat} (clean : (ofText text).diagnostics = []) (closed : j ≤ k)
  (room : k + (Tree.ofText text).root.rank ≤ maxNesting)

include clean closed room

theorem parse_parenthesize :
    Parse.ofLexed (.ofText (Text.parenthesize k j text)) =
      ⟨((Tree.ofText text).root.relocate (.shift k)).parenthesize
          (.closing (k + text.utf8ByteSize) j) ((List.range k).map (.single .openParen '(')),
        List.replicate (k - j)
          (.error (.emptyAt (Text.parenthesize k j text).utf8ByteSize) .unclosedParenthesis),
        none⟩ := by
  obtain ⟨canonical, folds, tokens⟩ := reads_relocate_of_clean clean k
  let openings : List Token := (List.range k).map (.single .openParen '(')
  let closings : List Token :=
    (List.range j).map fun i => .single .closeParen ')' (k + text.utf8ByteSize + i)
  have opened : openings.length = k := by simp [openings]
  have written : closings.length = j := by simp [closings]
  have opens : ∀ token ∈ openings, token.kind = .openParen := by simp [openings, Token.single]
  have closes : ∀ token ∈ closings, token.kind = .closeParen := by simp [closings, Token.single]
  have whole : (Lexed.ofText (Text.parenthesize k j text)).tokens =
      openings ++ (((Tree.ofText text).root.relocate (.shift k)).tokens ++ closings) := by
    rw [tokens, (Lexed.ofText_parenthesize k j text).1]
  have parsed := Parse.ofLexed_parenthesize rfl canonical folds
    (by rwa [Node.rank_relocate, opened]) opens closes (by rwa [opened, written]) whole
  have closing (i : Nat) : closings.getD i
      (.invented .closeParen (Text.parenthesize k j text).utf8ByteSize) =
        .closing (k + text.utf8ByteSize) j i := by
    rw [Text.utf8ByteSize_parenthesize]
    by_cases inside : i < j
    · simp [closings, Token.closing, inside]
    · simp [closings, Token.closing, inside]
  rw [opened, written] at parsed
  rw [parsed]
  exact congrArg (Parse.mk · _ _) (congrArg (Node.parenthesize _ · _) (funext closing))

theorem resolve_parenthesize :
    Resolver.empty.resolve (Tree.ofText (Text.parenthesize k j text)).root =
      ((ofText text).typed.relocate (.shift k), .empty) := by
  obtain ⟨-, -, resolved⟩ := clean_of_diagnostics_eq_nil clean
  have root := congrArg Parse.root (parse_parenthesize clean closed room)
  have moved := @Resolver.resolve_relocate (.shift k) .empty (Tree.ofText text).root
  have nothing : (Resolver.empty.resolve (Tree.ofText text).root).2.relocate (.shift k) =
      .empty := by
    rw [Resolver.relocate, resolved, List.map_nil]
    rfl
  rw [nothing] at moved
  calc Resolver.empty.resolve (Tree.ofText (Text.parenthesize k j text)).root
      = Resolver.empty.resolve ((Tree.ofText text).root.relocate (.shift k)) :=
        (congrArg _ root).trans (Resolver.resolve_parenthesize _ _ _ _)
    _ = ((ofText text).typed.relocate (.shift k), .empty) := moved

theorem diagnostics_parenthesize :
    (ofText (Text.parenthesize k j text)).diagnostics =
      List.replicate (k - j)
        (.error (.emptyAt (Text.parenthesize k j text).utf8ByteSize) .unclosedParenthesis) := by
  obtain ⟨lexed, -, -⟩ := clean_of_diagnostics_eq_nil clean
  have characters : (Lexed.ofText (Text.parenthesize k j text)).diagnostics = [] := by
    rw [(Lexed.ofText_parenthesize k j text).2, lexed, List.map_nil]
  have order := congrArg Parse.diagnostics (parse_parenthesize clean closed room)
  have types : (Resolver.empty.resolve
      (Parse.ofLexed (.ofText (Text.parenthesize k j text))).root).2.reported = [] :=
    congrArg (·.2.reported) (resolve_parenthesize clean closed room)
  simp only [ofText, characters, order, types, List.nil_append, List.append_nil]

end

/-- A text with nothing wrong, behind `k` opening parentheses and before at most as many closing
ones, is parsed to its own tree in `k` parentheses, `k` bytes further on, as long as there is room
for them. The parentheses that are not closed are reported at the end, and nothing else is; and the
typed expression is that of the text. So if all are closed, then the outcome is that of the text. -/
theorem parenthesize_transparent (text : String) (k j : Nat)
    (clean : (ofText text).diagnostics = []) (closed : j ≤ k)
    (room : k + (Tree.ofText text).root.rank ≤ maxNesting) :
    (Tree.ofText (Text.parenthesize k j text)).root =
      ((Tree.ofText text).root.relocate (.shift k)).parenthesize
        (.closing (k + text.utf8ByteSize) j) ((List.range k).map (.single .openParen '(')) ∧
    (ofText (Text.parenthesize k j text)).diagnostics =
      List.replicate (k - j)
        (.error (.emptyAt (Text.parenthesize k j text).utf8ByteSize) .unclosedParenthesis) ∧
    (ofText (Text.parenthesize k j text)).typed = (ofText text).typed.relocate (.shift k) ∧
    (j = k → evaluate (Text.parenthesize k j text) = (evaluate text).relocate (.shift k)) := by
  have parsed := parse_parenthesize clean closed room
  have diagnostics := diagnostics_parenthesize clean closed room
  have typed : (ofText (Text.parenthesize k j text)).typed =
      (ofText text).typed.relocate (.shift k) :=
    congrArg Prod.fst (resolve_parenthesize clean closed room)
  refine ⟨congrArg Parse.root parsed, diagnostics, typed, ?_⟩
  rintro rfl
  rw [Nat.sub_self, List.replicate_zero] at diagnostics
  rw [evaluate_of_clean diagnostics, evaluate_of_clean clean, typed, Typed.eval_relocate,
    Outcome.ofEval_relocate]

theorem parenthesize_transparent_quotient :
    (ofText "8/0").diagnostics = [] ∧ 254 + (Tree.ofText "8/0").root.rank = maxNesting ∧
    evaluate (Text.parenthesize 254 254 "8/0") = .failed (.divisionByZero ⟨255, 1⟩) ∧
    (ofText (Text.parenthesize 254 253 "8/0")).diagnostics =
      [.error ⟨510, 0⟩ .unclosedParenthesis] := by
  have clean : (ofText "8/0").diagnostics = [] := by decide +kernel
  have room : 254 + (Tree.ofText "8/0").root.rank = maxNesting := by decide +kernel
  have outcome : evaluate "8/0" = .failed (.divisionByZero ⟨1, 1⟩) := by decide +kernel
  obtain ⟨-, -, -, same⟩ := parenthesize_transparent "8/0" 254 254 clean (by decide) (by omega)
  obtain ⟨-, reported, -⟩ := parenthesize_transparent "8/0" 254 253 clean (by decide) (by omega)
  refine ⟨clean, room, ?_, ?_⟩
  · rw [same rfl, outcome]
    rfl
  · rw [reported, Text.utf8ByteSize_parenthesize]
    rfl

end Analysis

end Reckon
