import Reckon.Text
import Reckon.Token.Basic

/-!
Pieces: a text is cut, from the left and as long as possible each time, into blanks, lexemes and
characters that start no lexeme. Cutting loses nothing: the pieces of a text spell it.
-/

set_option autoImplicit false
set_option relaxedAutoImplicit false

namespace Reckon

inductive Piece
  | blank (c : Char)
  | lexeme (kind : Token.Kind) (text : List Char)
  | stray (c : Char)
  deriving DecidableEq

namespace Piece

/-- The characters that may stand between tokens. -/
def isBlank (c : Char) : Bool :=
  c = ' ' || c = '\t' || c = '\r' || c = '\n' || c = '\x0c'

def startsWord (c : Char) : Bool :=
  c.isAlpha || c = '_'

def continuesWord (c : Char) : Bool :=
  c.isAlphanum || c = '_'

/-- Two words are reserved, and all others are identifiers. -/
def word (text : List Char) : Piece :=
  if text = ['t', 'r', 'u', 'e'] then .lexeme .trueWord text
  else if text = ['f', 'a', 'l', 's', 'e'] then .lexeme .falseWord text
  else .lexeme .identifier text

def single? : Char → Option Token.Kind
  | '+' => some .plus
  | '-' => some .minus
  | '*' => some .star
  | '/' => some .slash
  | '!' => some .bang
  | '<' => some .less
  | '>' => some .greater
  | '(' => some .openParen
  | ')' => some .closeParen
  | _ => none

def double? : Char → Char → Option Token.Kind
  | '&', '&' => some .andAnd
  | '|', '|' => some .orOr
  | '=', '=' => some .equal
  | '!', '=' => some .notEqual
  | '<', '=' => some .lessEqual
  | '>', '=' => some .greaterEqual
  | _, _ => none

/-- A character that stands for itself, or starts no lexeme at all. -/
def alone (c : Char) : Piece :=
  match single? c with
  | some kind => .lexeme kind [c]
  | none => .stray c

/-- The operator at the front of `c :: cs`, of two characters rather than of one. -/
def symbol (c : Char) : List Char → Piece
  | [] => alone c
  | d :: _ =>
    match double? c d with
    | some kind => .lexeme kind [c, d]
    | none => alone c

/-- The longest piece at the front of the text `c :: cs`. -/
def first (c : Char) (cs : List Char) : Piece :=
  if isBlank c then .blank c
  else if c.isDigit then .lexeme .number (c :: cs.takeWhile Char.isDigit)
  else if startsWord c then word (c :: cs.takeWhile continuesWord)
  else symbol c cs

def chars : Piece → List Char
  | .blank c => [c]
  | .lexeme _ text => text
  | .stray c => [c]

def byteSize (p : Piece) : Nat :=
  Text.byteSize p.chars

theorem chars_word (text : List Char) : (word text).chars = text := by
  unfold word
  split
  · rfl
  · split <;> rfl

theorem chars_alone (c : Char) : (alone c).chars = [c] := by
  unfold alone
  split <;> rfl

theorem chars_symbol_isPrefix (c : Char) (cs : List Char) : (symbol c cs).chars <+: c :: cs := by
  unfold symbol
  split
  · simp [chars_alone]
  · split
    · simp [chars]
    · simp [chars_alone]

theorem chars_symbol_ne_nil (c : Char) (cs : List Char) : (symbol c cs).chars ≠ [] := by
  unfold symbol
  split
  · simp [chars_alone]
  · split
    · simp [chars]
    · simp [chars_alone]

theorem chars_first_isPrefix (c : Char) (cs : List Char) : (first c cs).chars <+: c :: cs := by
  unfold first
  split
  · simp [chars]
  · split
    · simpa [chars] using List.takeWhile_prefix Char.isDigit
    · split
      · simpa [chars_word] using List.takeWhile_prefix continuesWord
      · exact chars_symbol_isPrefix c cs

theorem chars_first_ne_nil (c : Char) (cs : List Char) : (first c cs).chars ≠ [] := by
  unfold first
  split
  · simp [chars]
  · split
    · simp [chars]
    · split
      · simp [chars_word]
      · exact chars_symbol_ne_nil c cs

theorem length_drop_first_lt (c : Char) (cs : List Char) :
    ((c :: cs).drop (first c cs).chars.length).length < (c :: cs).length := by
  have h := List.length_pos_iff.mpr (chars_first_ne_nil c cs)
  simp only [List.length_drop, List.length_cons]
  omega

def cut : List Char → List Piece
  | [] => []
  | c :: cs => first c cs :: cut ((c :: cs).drop (first c cs).chars.length)
termination_by text => text.length
decreasing_by exact length_drop_first_lt c cs

theorem flatMap_chars_cut (text : List Char) : (cut text).flatMap chars = text := by
  fun_induction cut text with
  | case1 => rfl
  | case2 c cs ih =>
    obtain ⟨rest, h⟩ := chars_first_isPrefix c cs
    rw [List.flatMap_cons, ih, ← h, List.drop_left]

end Piece

end Reckon
