import Reckon.Proofs.Node.Relocation
import Reckon.Proofs.Token.Layout

/-!
One text behind another. If no piece reaches over the seam between two texts, then the tokens and
reports of both together are those of the first one, and those of the second one moved behind it.
Blanks between two texts make such a seam, whatever the texts end and start with.
-/

set_option autoImplicit false
set_option relaxedAutoImplicit false

namespace Reckon

def Span.shift (k : Nat) (span : Span) : Span :=
  { span with start := span.start + k }

theorem Token.aligned_shift (k : Nat) (token : Token) : token.Aligned (.shift k) := rfl

namespace Placed

variable (k start : Nat)

def shift (p : Placed) : Placed :=
  { p with start := p.start + k }

theorem run_append (before after : List Piece) :
    run start (before ++ after) =
      run start before ++ run (start + Text.byteSize (before.flatMap Piece.chars)) after := by
  induction before generalizing start with
  | nil => rfl
  | cons piece before ih =>
    have place : start + piece.byteSize + Text.byteSize (before.flatMap Piece.chars) =
        start + Text.byteSize ((piece :: before).flatMap Piece.chars) := by
      rw [List.flatMap_cons, Text.byteSize_append, Piece.byteSize, Nat.add_assoc]
    rw [List.cons_append, run, ih, place]
    rfl

theorem run_add (pieces : List Piece) :
    run (start + k) pieces = (run start pieces).map (shift k) := by
  induction pieces generalizing start with
  | nil => rfl
  | cons piece pieces ih =>
    rw [run, Nat.add_right_comm, ih]
    rfl

theorem token?_shift (p : Placed) :
    (p.shift k).token? = p.token?.map (.relocate (.shift k)) := by
  obtain ⟨start, piece⟩ := p
  cases piece <;> rfl

theorem diagnostic?_shift (p : Placed) :
    (p.shift k).diagnostic? = p.diagnostic?.map (.relocate (.shift k)) := by
  have same : (p.shift k).problem? = p.problem? := rfl
  rw [diagnostic?, diagnostic?, same, Option.map_map]
  rfl

end Placed

namespace Lexed

variable {a b : String}
  (seam : Piece.cut (a.toList ++ b.toList) = Piece.cut a.toList ++ Piece.cut b.toList)

include seam

theorem placed_append :
    Placed.ofText (a ++ b) =
      Placed.ofText a ++ (Placed.ofText b).map (.shift a.utf8ByteSize) := by
  have size : 0 + Text.byteSize ((Piece.cut a.toList).flatMap Piece.chars) =
      0 + a.utf8ByteSize := by
    rw [Piece.flatMap_chars_cut, Text.byteSize_toList]
  rw [Placed.ofText, String.toList_append, seam, Placed.run_append, size, Placed.run_add]
  rfl

theorem tokens_append :
    (ofText (a ++ b)).tokens =
      (ofText a).tokens ++ (ofText b).tokens.map (.relocate (.shift a.utf8ByteSize)) := by
  simp only [ofText, placed_append seam, List.filterMap_append, List.filterMap_map,
    List.map_filterMap]
  exact congrArg (_ ++ List.filterMap · _) (funext (Placed.token?_shift _))

theorem diagnostics_append :
    (ofText (a ++ b)).diagnostics =
      (ofText a).diagnostics ++ (ofText b).diagnostics.map (.relocate (.shift a.utf8ByteSize)) := by
  simp only [ofText, placed_append seam, List.filterMap_append, List.filterMap_map,
    List.map_filterMap]
  exact congrArg (_ ++ List.filterMap · _) (funext (Placed.diagnostic?_shift _))

end Lexed

namespace Lexed

theorem ofText_blanks {w : String} (blank : ∀ c ∈ w.toList, Piece.isBlank c = true) :
    (ofText w).tokens = [] ∧ (ofText w).diagnostics = [] := by
  have placed : Placed.ofText w = Placed.run 0 (w.toList.map .blank ++ []) := by
    have whole := Piece.cut_blanks_append blank []
    rw [List.append_nil, Piece.cut] at whole
    rw [Placed.ofText, whole]
  have nothing {β : Type} (f : Placed → Option β)
      (skipped : ∀ (start : Nat) (c : Char), f ⟨start, .blank c⟩ = none) :
      (Placed.ofText w).filterMap f = [] := by
    rw [placed, Layout.filterMap_run_blanks f skipped]
    rfl
  exact ⟨nothing _ fun _ _ => rfl, nothing _ fun _ _ => rfl⟩

variable (a b : String) {w : String} (nonempty : w ≠ "")
  (blank : ∀ c ∈ w.toList, Piece.isBlank c = true)

include nonempty blank

private theorem seam_blanks :
    Piece.cut (a.toList ++ w.toList) = Piece.cut a.toList ++ Piece.cut w.toList ∧
    Piece.cut ((a ++ w).toList ++ b.toList) =
      Piece.cut (a ++ w).toList ++ Piece.cut b.toList := by
  have filled : w.toList ≠ [] := by
    simpa using nonempty
  have alone := Piece.cut_append_blanks filled blank [] []
  have behind := Piece.cut_append_blanks filled blank a.toList []
  have between := Piece.cut_append_blanks filled blank a.toList b.toList
  simp only [List.nil_append, List.append_nil, Piece.cut] at alone behind
  constructor
  · rw [behind, alone]
  · rw [String.toList_append, between, behind, List.append_assoc]

theorem tokens_append_blanks :
    (ofText (a ++ w ++ b)).tokens =
      (ofText a).tokens ++ (ofText b).tokens.map (.relocate (.shift (a ++ w).utf8ByteSize)) := by
  obtain ⟨front, back⟩ := seam_blanks a b nonempty blank
  rw [tokens_append back, tokens_append front, (ofText_blanks blank).1, List.map_nil,
    List.append_nil]

theorem diagnostics_append_blanks :
    (ofText (a ++ w ++ b)).diagnostics =
      (ofText a).diagnostics ++
        (ofText b).diagnostics.map (.relocate (.shift (a ++ w).utf8ByteSize)) := by
  obtain ⟨front, back⟩ := seam_blanks a b nonempty blank
  rw [diagnostics_append back, diagnostics_append front, (ofText_blanks blank).2, List.map_nil,
    List.append_nil]

end Lexed

theorem Token.atEnd_append (a b : String) :
    atEnd (a ++ b) = (atEnd b).relocate (.shift a.utf8ByteSize) := by
  rw [atEnd, String.utf8ByteSize_append, Nat.add_comm]
  rfl

/-- Two texts with blanks between them are lexed apart: all tokens of the first one but its end come
first, then all of the second one, moved behind the first text and the blanks; and what is reported
is what is reported of the first text, and then of the second one, moved in the same way. -/
theorem Lexed.all_and_diagnostics_append_blanks (a b w : String) (nonempty : w ≠ "")
    (blank : ∀ c ∈ w.toList, Piece.isBlank c = true) :
    (ofText (a ++ w ++ b)).all =
      (ofText a).tokens ++ (ofText b).all.map (.relocate (.shift (a ++ w).utf8ByteSize)) ∧
    (ofText (a ++ w ++ b)).diagnostics =
      (ofText a).diagnostics ++
        (ofText b).diagnostics.map (.relocate (.shift (a ++ w).utf8ByteSize)) := by
  have tokens := tokens_append_blanks a b nonempty blank
  have last : (ofText (a ++ w ++ b)).endOfInput =
      (ofText b).endOfInput.relocate (.shift (a ++ w).utf8ByteSize) :=
    Token.atEnd_append (a ++ w) b
  refine ⟨?_, diagnostics_append_blanks a b nonempty blank⟩
  rw [all, all, tokens, last, List.map_append, List.append_assoc]
  rfl

theorem Lexed.all_and_diagnostics_append_blanks_halves :
    "\n" ≠ "" ∧ (∀ c ∈ "\n".toList, Piece.isBlank c = true) ∧
    (ofText ("7 é<" ++ "\n" ++ "=99999999999999999999")).all.map Token.kind =
      [.number, .less, .number, .endOfInput] ∧
    (ofText ("7 é<" ++ "\n" ++ "=99999999999999999999")).diagnostics =
      [.error ⟨2, 2⟩ (.badCharacter "é"), .error ⟨6, 1⟩ (.badCharacter "="),
        .error ⟨7, 20⟩ (.numberOutOfRange "99999999999999999999")] := by
  have nonempty : "\n" ≠ "" := by decide
  have blank : ∀ c ∈ "\n".toList, Piece.isBlank c = true := by simp [Piece.isBlank]
  obtain ⟨all, diagnostics⟩ := Lexed.all_and_diagnostics_append_blanks "7 é<"
    "=99999999999999999999" "\n" nonempty blank
  refine ⟨nonempty, blank, ?_, ?_⟩
  · rw [all]
    decide +kernel
  · rw [diagnostics]
    decide +kernel

end Reckon
