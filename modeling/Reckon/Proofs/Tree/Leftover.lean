import Reckon.Proofs.Node.Acceptance
import Reckon.Proofs.Token.Seam

/-!
What is left over behind an expression. A tree of the grammar is read in the same way whatever
stands behind its tokens, as long as that is no infix operator; and of all that stands there, only
the first token is reported.
-/

set_option autoImplicit false
set_option relaxedAutoImplicit false

namespace Reckon

theorem Parse.ofLexed_of_leftover {lexed : Lexed} {node : Node} {first : Token}
    {more : List Token} (canonical : node.Canonical) (fits : node.rank ≤ maxNesting)
    (folds : node.FoldsWithin maxNesting) (tokens : lexed.tokens = node.tokens ++ first :: more)
    (noOperator : first.kind.infixTier = 0) :
    ofLexed lexed =
      ⟨node, [.error first.span (.unexpectedToken first.kind .endOfInput)], none⟩ := by
  have below : ((Parser.start lexed).leaving (first :: more)).current.kind.infixTier ≤ 0 :=
    Nat.le_of_eq noOperator
  have parsed := Parser.expression_of_canonical canonical (s := Parser.start lexed) fits folds
    canonical.tier_pos tokens below
  rw [ofLexed, parsed]
  rfl

theorem Problem.message_unexpectedToken_endOfInput (kind : Token.Kind) :
    (unexpectedToken kind .endOfInput).message =
      "unexpected token <" ++ kind.name ++ ">, expected <EndOfFile>" := by
  have tail : ">, expected <EndOfFile>" = ">, expected <" ++ "EndOfFile" ++ ">" := by decide
  rw [tail, ← String.append_assoc, ← String.append_assoc]
  rfl

namespace Tree

/-- Behind a text that is parsed without a report, and a space, let there be another text, with a
token that is no infix operator first. Then the tree is that of the first text, and beyond the
characters that are wrong there is one report: that the first token of the second text, where it
stands now, is not expected. -/
theorem leftover_reported_once (t u : String) (first : Token) (more : List Token)
    (clean : (ofText t).diagnostics = [])
    (leftover : (Lexed.ofText u).tokens = first :: more)
    (noOperator : first.kind.infixTier = 0) :
    (ofText (t ++ " " ++ u)).root = (ofText t).root ∧
    (Lexed.ofText (t ++ " " ++ u)).tokens[(Lexed.ofText t).tokens.length]? =
      some (first.relocate (.shift (t.utf8ByteSize + 1))) ∧
    (ofText (t ++ " " ++ u)).diagnostics =
      (Lexed.ofText (t ++ " " ++ u)).diagnostics ++
        [.error (first.span.shift (t.utf8ByteSize + 1))
          (.unexpectedToken first.kind .endOfInput)] ∧
    (Problem.unexpectedToken first.kind .endOfInput).message =
      "unexpected token <" ++ first.kind.name ++ ">, expected <EndOfFile>" := by
  have parsed : (Parse.ofLexed (.ofText t)).diagnostics = [] := (List.append_eq_nil_iff.mp clean).2
  have reads := @Parse.reads_root_of_clean (.ofText t) rfl parsed
  have front : (ofText t).root.tokens = (Lexed.ofText t).tokens :=
    List.append_cancel_right reads.tokens
  have size : (t ++ " ").utf8ByteSize = t.utf8ByteSize + 1 := by
    rw [String.utf8ByteSize_append]
    rfl
  have tokens : (Lexed.ofText (t ++ " " ++ u)).tokens =
      (Lexed.ofText t).tokens ++ first.relocate (.shift (t.utf8ByteSize + 1)) ::
        more.map (.relocate (.shift (t.utf8ByteSize + 1))) := by
    have blank : ∀ c ∈ " ".toList, Piece.isBlank c = true := by simp [Piece.isBlank]
    rw [Lexed.tokens_append_blanks t u (by decide) blank, leftover, size, List.map_cons]
  have whole := Parse.ofLexed_of_leftover reads.canonical reads.rank reads.folds
    (tokens.trans (congrArg (· ++ _) front.symm)) noOperator
  have root := congrArg Parse.root whole
  refine ⟨root, ?_, congrArg (_ ++ ·) (congrArg Parse.diagnostics whole), ?_⟩
  · rw [tokens, List.getElem?_append_right (Nat.le_refl _), Nat.sub_self]
    rfl
  · exact Problem.message_unexpectedToken_endOfInput first.kind

theorem leftover_reported_once_closing :
    (ofText "-(1+2)*3").diagnostics = [] ∧
    (ofText ("-(1+2)*3" ++ " " ++ "é) 4 (")).root = (ofText "-(1+2)*3").root ∧
    (ofText ("-(1+2)*3" ++ " " ++ "é) 4 (")).diagnostics =
      [.error ⟨9, 2⟩ (.badCharacter "é"),
        .error ⟨11, 1⟩ (.unexpectedToken .closeParen .endOfInput)] := by
  have clean : (ofText "-(1+2)*3").diagnostics = [] := by decide +kernel
  have leftover : (Lexed.ofText "é) 4 (").tokens =
      [⟨.closeParen, ⟨2, 1⟩, ")", none⟩, ⟨.number, ⟨4, 1⟩, "4", some (.integer 4)⟩,
        ⟨.openParen, ⟨6, 1⟩, "(", none⟩] := by
    decide +kernel
  obtain ⟨root, -, diagnostics, -⟩ :=
    leftover_reported_once "-(1+2)*3" "é) 4 (" _ _ clean leftover rfl
  refine ⟨clean, root, diagnostics.trans ?_⟩
  decide +kernel

end Tree

end Reckon
