import Reckon.Token.Lexer

/-!
Blanks between lexemes. A blank cuts a text in two: what stands before it is cut as if nothing
followed, and what stands after it as if nothing came before. So a row of lexemes, written with
any blanks around and between them, is read back as the tokens of these lexemes.
-/

set_option autoImplicit false
set_option relaxedAutoImplicit false

namespace Reckon

namespace Piece

variable {b : Char}

theorem eq_of_isBlank (blank : isBlank b = true) :
    b = ' ' ∨ b = '\t' ∨ b = '\r' ∨ b = '\n' ∨ b = '\x0c' := by
  simpa [isBlank, or_assoc] using blank

private theorem isDigit_of_isBlank (blank : isBlank b = true) : b.isDigit = false := by
  rcases eq_of_isBlank blank with rfl | rfl | rfl | rfl | rfl <;> decide

private theorem continuesWord_of_isBlank (blank : isBlank b = true) : continuesWord b = false := by
  rcases eq_of_isBlank blank with rfl | rfl | rfl | rfl | rfl <;> decide

private theorem double?_of_isBlank (blank : isBlank b = true) (c : Char) : double? c b = none := by
  rcases eq_of_isBlank blank with rfl | rfl | rfl | rfl | rfl <;> simp [double?]

/-- A character that no lexeme goes on with, whatever stands before it. -/
structure Stops (b : Char) : Prop where
  digit : b.isDigit = false
  word : continuesWord b = false
  symbol : ∀ c : Char, double? c b = none

theorem stops_of_isBlank (blank : isBlank b = true) : Stops b :=
  ⟨isDigit_of_isBlank blank, continuesWord_of_isBlank blank, double?_of_isBlank blank⟩

private theorem takeWhile_append_of_not {p : Char → Bool} (stops : p b = false)
    (cs rest : List Char) : (cs ++ b :: rest).takeWhile p = cs.takeWhile p := by
  induction cs with
  | nil => simp [stops]
  | cons c cs ih => simp only [List.cons_append, List.takeWhile_cons, ih]

private theorem symbol_append (stops : Stops b) (c : Char) (cs rest : List Char) :
    symbol c (cs ++ b :: rest) = symbol c cs := by
  cases cs with
  | nil => simp only [List.nil_append, symbol, stops.symbol]
  | cons d ds => rfl

theorem first_append (stops : Stops b) (c : Char) (cs rest : List Char) :
    first c (cs ++ b :: rest) = first c cs := by
  unfold first
  rw [takeWhile_append_of_not stops.digit, takeWhile_append_of_not stops.word,
    symbol_append stops]

theorem cut_append (stops : Stops b) (text rest : List Char) :
    cut (text ++ b :: rest) = cut text ++ cut (b :: rest) := by
  fun_induction cut text with
  | case1 => rfl
  | case2 c cs ih =>
    have inside : (first c cs).chars.length ≤ (c :: cs).length :=
      (chars_first_isPrefix c cs).length_le
    rw [List.cons_append, cut, first_append stops, ← List.cons_append,
      List.drop_append_of_le_length inside, ih]
    rfl

theorem first_blank (blank : isBlank b = true) (rest : List Char) : first b rest = .blank b :=
  if_pos blank

theorem cut_blank (blank : isBlank b = true) (rest : List Char) :
    cut (b :: rest) = .blank b :: cut rest := by
  rw [cut, first_blank blank]
  rfl

theorem cut_append_blank (blank : isBlank b = true) (text rest : List Char) :
    cut (text ++ b :: rest) = cut text ++ .blank b :: cut rest := by
  rw [cut_append (stops_of_isBlank blank), cut_blank blank]

theorem cut_of_first {kind : Token.Kind} {c : Char} {cs : List Char}
    (whole : first c cs = .lexeme kind (c :: cs)) : cut (c :: cs) = [.lexeme kind (c :: cs)] := by
  rw [cut, whole]
  simp [chars, cut]

theorem cut_digits {digits : List Char} (nonempty : digits ≠ [])
    (digit : ∀ c ∈ digits, c.isDigit = true) : cut digits = [.lexeme .number digits] := by
  obtain ⟨c, cs, rfl⟩ := List.exists_cons_of_ne_nil nonempty
  have head : c.isDigit = true := digit c List.mem_cons_self
  have noBlank : ¬ isBlank c = true := by
    intro blank
    rw [isDigit_of_isBlank blank] at head
    cases head
  have tail : cs.takeWhile Char.isDigit = cs := by
    have more : ∀ d ∈ cs, d.isDigit = true := by
      intro d member
      exact digit d (List.mem_cons_of_mem c member)
    simpa using @List.takeWhile_append_of_pos _ Char.isDigit cs [] more
  apply cut_of_first
  rw [first, if_neg noBlank, if_pos head, tail]

theorem cut_blanks_append {blanks : List Char} (blank : ∀ c ∈ blanks, isBlank c = true)
    (rest : List Char) : cut (blanks ++ rest) = blanks.map .blank ++ cut rest := by
  induction blanks with
  | nil => rfl
  | cons c cs ih =>
    rw [List.cons_append, cut_blank (blank c List.mem_cons_self),
      ih fun d member => blank d (List.mem_cons_of_mem c member)]
    rfl

theorem cut_append_blanks {blanks : List Char} (nonempty : blanks ≠ [])
    (blank : ∀ c ∈ blanks, isBlank c = true) (text rest : List Char) :
    cut (text ++ blanks ++ rest) = cut text ++ (blanks.map .blank ++ cut rest) := by
  obtain ⟨c, cs, rfl⟩ := List.exists_cons_of_ne_nil nonempty
  obtain ⟨first, others⟩ := List.forall_mem_cons.mp blank
  rw [List.append_assoc, List.cons_append, cut_append_blank first, cut_blanks_append others]
  rfl

end Piece

/-- The characters of a kind that is always spelled in the same way. -/
def Token.Kind.spelling : Token.Kind → List Char
  | .trueWord => ['t', 'r', 'u', 'e']
  | .falseWord => ['f', 'a', 'l', 's', 'e']
  | .plus => ['+']
  | .minus => ['-']
  | .star => ['*']
  | .slash => ['/']
  | .bang => ['!']
  | .andAnd => ['&', '&']
  | .orOr => ['|', '|']
  | .equal => ['=', '=']
  | .notEqual => ['!', '=']
  | .less => ['<']
  | .lessEqual => ['<', '=']
  | .greater => ['>']
  | .greaterEqual => ['>', '=']
  | .openParen => ['(']
  | .closeParen => [')']
  | .number | .identifier | .endOfInput => []

theorem Piece.cut_spelling {kind : Token.Kind} (fixed : kind.spelling ≠ []) :
    cut kind.spelling = [.lexeme kind kind.spelling] := by
  cases kind with
  | number => exact absurd rfl fixed
  | identifier => exact absurd rfl fixed
  | endOfInput => exact absurd rfl fixed
  | _ => exact cut_of_first (by decide)

/-- A lexeme that is read as it stands, when nothing stands around it. -/
structure Lexeme where
  kind : Token.Kind
  text : List Char
  cut_text : Piece.cut text = [.lexeme kind text]

namespace Lexeme

def ofKind (kind : Token.Kind) (fixed : kind.spelling ≠ []) : Lexeme :=
  ⟨kind, kind.spelling, Piece.cut_spelling fixed⟩

def number (n : Nat) : Lexeme :=
  ⟨.number, Nat.toDigits 10 n,
    Piece.cut_digits Nat.toDigits_ne_nil fun _ member =>
      Nat.isDigit_of_mem_toDigits (by decide) (by decide) member⟩

def truth (b : Bool) : Lexeme :=
  .ofKind (if b then .trueWord else .falseWord) (by cases b <;> decide)

/-- A lexeme is no number that is out of range. -/
def InRange (l : Lexeme) : Prop :=
  ¬ (l.kind = .number ∧ Placed.decimal? l.text = none)

theorem inRange_of_kind_ne {l : Lexeme} (other : l.kind ≠ .number) : l.InRange :=
  fun wrong => other wrong.1

theorem decimal?_text_number {n : Nat} (small : (n : Int) ≤ Int64.maxValue.toInt) :
    ∃ m : Int64, Placed.decimal? (number n).text = some m ∧ m.toInt = n := by
  have low : Int64.minValue.toInt ≤ (n : Int) := by
    rw [Int64.toInt_minValue]
    omega
  have narrowed : narrow? n = some (Int64.ofInt n) := if_pos ⟨low, small⟩
  refine ⟨Int64.ofInt n, ?_, toInt_of_narrow? narrowed⟩
  rw [Placed.decimal?, number, Nat.ofDigitChars_ten_toDigits, narrowed]

def token (l : Lexeme) (span : Span) : Token :=
  ⟨l.kind, span, String.ofList l.text, Placed.literal l.kind l.text⟩

/-- The tokens of a row of lexemes, numbered from `i` on, each at the place of its number. -/
def place (places : Nat → Span) : Nat → List Lexeme → List Token
  | _, [] => []
  | i, l :: ls => l.token (places i) :: place places (i + 1) ls

private theorem place_succ (places : Nat → Span) (i : Nat) (ls : List Lexeme) :
    place places (i + 1) ls = place (fun n => places (n + 1)) i ls := by
  induction ls generalizing i with
  | nil => rfl
  | cons l ls ih => rw [place, place, ih]

theorem place_append (places : Nat → Span) (i : Nat) (ls ms : List Lexeme) :
    place places i (ls ++ ms) = place places i ls ++ place places (i + ls.length) ms := by
  induction ls generalizing i with
  | nil => rfl
  | cons l ls ih =>
    have shift : i + (l :: ls).length = i + 1 + ls.length := by
      simp only [List.length_cons]
      omega
    rw [List.cons_append, place, ih, shift]
    rfl

theorem map_place {β : Type} {f : Token → β} {g : Lexeme → β}
    (same : ∀ (l : Lexeme) (span : Span), f (l.token span) = g l) (places : Nat → Span) (i : Nat)
    (ls : List Lexeme) : (place places i ls).map f = ls.map g := by
  induction ls generalizing i with
  | nil => rfl
  | cons l ls ih => rw [place, List.map_cons, same, ih, List.map_cons]

end Lexeme

theorem Placed.map_piece_run (start : Nat) (pieces : List Piece) :
    (run start pieces).map piece = pieces := by
  induction pieces generalizing start with
  | nil => rfl
  | cons p ps ih => rw [run, List.map_cons, ih]

/-- The blanks in front of every lexeme of a row, by its number, and those after the last. There
is at least one blank between two lexemes. -/
structure Layout where
  before : Nat → List Char
  after : List Char
  before_blank : ∀ i, ∀ c ∈ before i, Piece.isBlank c = true
  after_blank : ∀ c ∈ after, Piece.isBlank c = true
  apart : ∀ i, before (i + 1) ≠ []

namespace Layout

variable (layout : Layout)

def chars : Nat → List Lexeme → List Char
  | _, [] => layout.after
  | i, l :: ls => layout.before i ++ (l.text ++ chars (i + 1) ls)

def text (ls : List Lexeme) : String :=
  String.ofList (layout.chars 0 ls)

/-- Where the lexemes of a row numbered from `i` on stand, if the row starts at an offset: the
place of the first of them, and of those after it. -/
def placesFrom : Nat → Nat → List Lexeme → Nat → Span
  | _, start, [], _ => .emptyAt start
  | i, start, l :: _, 0 => ⟨start + Text.byteSize (layout.before i), Text.byteSize l.text⟩
  | i, start, l :: ls, n + 1 =>
    placesFrom (i + 1) (start + Text.byteSize (layout.before i) + Text.byteSize l.text) ls n

def places (ls : List Lexeme) : Nat → Span :=
  layout.placesFrom 0 0 ls

private def pieces : Nat → List Lexeme → List Piece
  | _, [] => layout.after.map .blank
  | i, l :: ls => (layout.before i).map .blank ++ .lexeme l.kind l.text :: pieces (i + 1) ls

private theorem cut_text_append (l : Lexeme) (i : Nat) (ls : List Lexeme) :
    Piece.cut (l.text ++ layout.chars (i + 1) ls) =
      .lexeme l.kind l.text :: Piece.cut (layout.chars (i + 1) ls) := by
  cases rest : layout.chars (i + 1) ls with
  | nil =>
    rw [List.append_nil, l.cut_text]
    simp [Piece.cut]
  | cons c cs =>
    have blank : Piece.isBlank c = true := by
      cases ls with
      | nil => exact layout.after_blank c (by rw [chars] at rest; simp [rest])
      | cons m ms =>
        obtain ⟨d, ds, front⟩ := List.exists_cons_of_ne_nil (layout.apart i)
        rw [chars, front, List.cons_append, List.cons.injEq] at rest
        exact rest.1 ▸ layout.before_blank (i + 1) d (by simp [front])
    rw [Piece.cut_append_blank blank, Piece.cut_blank blank, l.cut_text]
    rfl

private theorem cut_chars (i : Nat) (ls : List Lexeme) :
    Piece.cut (layout.chars i ls) = layout.pieces i ls := by
  induction ls generalizing i with
  | nil => simpa [chars, pieces, Piece.cut] using Piece.cut_blanks_append layout.after_blank []
  | cons l ls ih =>
    rw [chars, Piece.cut_blanks_append (layout.before_blank i), layout.cut_text_append, ih, pieces]

theorem filterMap_run_blanks {β : Type} (f : Placed → Option β)
    (nothing : ∀ (start : Nat) (c : Char), f ⟨start, .blank c⟩ = none) (blanks : List Char)
    (start : Nat) (rest : List Piece) :
    (Placed.run start (blanks.map .blank ++ rest)).filterMap f =
      (Placed.run (start + Text.byteSize blanks) rest).filterMap f := by
  induction blanks generalizing start with
  | nil => rfl
  | cons c cs ih =>
    have size : start + Text.byteSize (c :: cs) =
        start + (Piece.blank c).byteSize + Text.byteSize cs := by
      simp only [Piece.byteSize, Piece.chars, Text.byteSize]
      omega
    rw [List.map_cons, List.cons_append, Placed.run, List.filterMap_cons_none (nothing start c),
      ih, size]

private theorem filterMap_run_nil {β : Type} (f : Placed → Option β)
    (nothing : ∀ (start : Nat) (c : Char), f ⟨start, .blank c⟩ = none) (i start : Nat) :
    (Placed.run start (layout.pieces i [])).filterMap f = [] := by
  have skipped := filterMap_run_blanks f nothing layout.after start []
  rw [List.append_nil] at skipped
  exact skipped

private theorem tokens_run (i start : Nat) (ls : List Lexeme) :
    (Placed.run start (layout.pieces i ls)).filterMap Placed.token? =
      Lexeme.place (layout.placesFrom i start ls) 0 ls := by
  have nothing : ∀ (start : Nat) (c : Char), Placed.token? ⟨start, .blank c⟩ = none :=
    fun _ _ => rfl
  induction ls generalizing i start with
  | nil => exact layout.filterMap_run_nil Placed.token? nothing i start
  | cons l ls ih =>
    have token (start : Nat) : Placed.token? ⟨start, .lexeme l.kind l.text⟩ =
        some (l.token ⟨start, Text.byteSize l.text⟩) := rfl
    rw [pieces, filterMap_run_blanks Placed.token? nothing, Placed.run,
      List.filterMap_cons_some (token _), ih, Lexeme.place, Lexeme.place_succ]
    rfl

private theorem diagnostics_run (i start : Nat) {ls : List Lexeme}
    (sound : ∀ l ∈ ls, ∀ start, Placed.diagnostic? ⟨start, .lexeme l.kind l.text⟩ = none) :
    (Placed.run start (layout.pieces i ls)).filterMap Placed.diagnostic? = [] := by
  have nothing : ∀ (start : Nat) (c : Char), Placed.diagnostic? ⟨start, .blank c⟩ = none :=
    fun _ _ => rfl
  induction ls generalizing i start with
  | nil => exact layout.filterMap_run_nil Placed.diagnostic? nothing i start
  | cons l ls ih =>
    rw [pieces, filterMap_run_blanks Placed.diagnostic? nothing, Placed.run,
      List.filterMap_cons_none (sound l List.mem_cons_self _)]
    exact ih _ _ fun m member => sound m (List.mem_cons_of_mem l member)

theorem ofText_text (ls : List Lexeme) :
    Placed.ofText (layout.text ls) = Placed.run 0 (layout.pieces 0 ls) := by
  rw [Placed.ofText, text, String.toList_ofList, layout.cut_chars]

private theorem noStray_pieces (i : Nat) (ls : List Lexeme) (c : Char) :
    .stray c ∉ layout.pieces i ls := by
  induction ls generalizing i with
  | nil => simp [pieces]
  | cons l ls ih => simp [pieces, ih]

theorem noStray_text (ls : List Lexeme) {p : Placed}
    (member : p ∈ Placed.ofText (layout.text ls)) (c : Char) : p.piece ≠ .stray c := by
  intro stray
  have among : p.piece ∈ (Placed.run 0 (layout.pieces 0 ls)).map Placed.piece := by
    rw [← layout.ofText_text]
    exact List.mem_map_of_mem member
  rw [Placed.map_piece_run, stray] at among
  exact layout.noStray_pieces 0 ls c among

/-- A row of lexemes is read back from its text. -/
theorem tokens_text (ls : List Lexeme) :
    (Lexed.ofText (layout.text ls)).tokens = Lexeme.place (layout.places ls) 0 ls := by
  rw [Lexed.ofText, layout.ofText_text, layout.tokens_run, places]

theorem diagnostics_text {ls : List Lexeme} (sound : ∀ l ∈ ls, l.InRange) :
    (Lexed.ofText (layout.text ls)).diagnostics = [] := by
  rw [Lexed.ofText, layout.ofText_text]
  refine layout.diagnostics_run 0 0 fun l member start => ?_
  have range : ¬ (l.kind = .number ∧ Placed.decimal? l.text = none) := sound l member
  simp only [Placed.diagnostic?, Placed.problem?, if_neg range, Option.map_none]

def spaced : Layout where
  before
    | 0 => []
    | _ + 1 => [' ']
  after := []
  before_blank := by
    intro i c member
    cases i with
    | zero => cases member
    | succ i =>
      obtain rfl := List.mem_singleton.mp member
      decide
  after_blank := by
    intro c member
    cases member
  apart := by
    intro i
    exact List.cons_ne_nil _ _

end Layout

end Reckon
