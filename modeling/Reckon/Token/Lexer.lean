import Reckon.Diagnostic
import Reckon.Token.Piece

/-!
Tokens of a text, all at once (`Lexed`) and one after another (`Lexer`). Both read the same
pieces: a lexeme gives a token, and a stray character or a number out of range is reported.
-/

set_option autoImplicit false
set_option relaxedAutoImplicit false

namespace Reckon

structure Placed where
  start : Nat
  piece : Piece
  deriving DecidableEq

namespace Placed

def span (p : Placed) : Span :=
  ⟨p.start, p.piece.byteSize⟩

/-- The number that a run of decimal digits denotes, if it is an integer of the language. -/
def decimal? (digits : List Char) : Option Int64 :=
  narrow? (Nat.ofDigitChars 10 digits 0)

/-- The value that a lexeme denotes; a number out of range counts as zero. -/
def literal (kind : Token.Kind) (text : List Char) : Option Value :=
  match kind with
  | .number => some (.integer ((decimal? text).getD 0))
  | .trueWord => some (.boolean true)
  | .falseWord => some (.boolean false)
  | _ => none

def token? (p : Placed) : Option Token :=
  match p.piece with
  | .lexeme kind text => some ⟨kind, p.span, String.ofList text, literal kind text⟩
  | _ => none

def problem? (p : Placed) : Option Problem :=
  match p.piece with
  | .blank _ => none
  | .lexeme kind text =>
    if kind = .number ∧ decimal? text = none then some (.numberOutOfRange (String.ofList text))
    else none
  | .stray c => some (.badCharacter (String.singleton c))

def diagnostic? (p : Placed) : Option Diagnostic :=
  p.problem?.map (Diagnostic.error p.span)

/-- Places the pieces one after another, from an offset on. -/
def run : Nat → List Piece → List Placed
  | _, [] => []
  | start, piece :: pieces => ⟨start, piece⟩ :: run (start + piece.byteSize) pieces

def ofText (text : String) : List Placed :=
  run 0 (Piece.cut text.toList)

end Placed

def Token.atEnd (text : String) : Token :=
  .invented .endOfInput text.utf8ByteSize

/-- The tokens of a text, with the one that ends it kept apart, and what is wrong with them. -/
structure Lexed where
  tokens : List Token
  endOfInput : Token
  diagnostics : List Diagnostic
  deriving DecidableEq

namespace Lexed

def ofText (text : String) : Lexed where
  tokens := (Placed.ofText text).filterMap Placed.token?
  endOfInput := .atEnd text
  diagnostics := (Placed.ofText text).filterMap Placed.diagnostic?

def all (l : Lexed) : List Token :=
  l.tokens ++ [l.endOfInput]

end Lexed

structure Lexer where
  ahead : List Placed
  endOfInput : Token
  reported : List Diagnostic
  finished : Bool

namespace Lexer

def ofText (text : String) : Lexer where
  ahead := Placed.ofText text
  endOfInput := .atEnd text
  reported := []
  finished := false

/-- Reads pieces up to and including the next token, if there is one: what is wrong with them,
and the token with the pieces after it. -/
def scan : List Placed → List Diagnostic × Option (Token × List Placed)
  | [] => ([], none)
  | p :: ps =>
    match p.token? with
    | some token => (p.diagnostic?.toList, some (token, ps))
    | none =>
      let found := scan ps
      (p.diagnostic?.toList ++ found.1, found.2)

def last? (l : Lexer) : Option Token :=
  if l.finished then none else some l.endOfInput

/-- Reads the next token. The token that ends the text is given once, and nothing after it. -/
def next (l : Lexer) : Option Token × Lexer :=
  let found := scan l.ahead
  match found.2 with
  | some (token, ahead) => (some token, { l with ahead, reported := l.reported ++ found.1 })
  | none =>
    (l.last?, { l with ahead := [], reported := l.reported ++ found.1, finished := true })

def rest (l : Lexer) : List Token × Lexer :=
  (l.ahead.filterMap Placed.token? ++ l.last?.toList,
    { l with
      ahead := []
      reported := l.reported ++ l.ahead.filterMap Placed.diagnostic?
      finished := true })

end Lexer

end Reckon
