/-!
Texts: the bytes that they take in UTF-8, white space around them, the lines of a stream of bytes,
and what is left of a text without the control characters and control sequences of a terminal.
-/

set_option autoImplicit false
set_option relaxedAutoImplicit false

namespace Reckon.Text

def byteSize : List Char → Nat
  | [] => 0
  | c :: cs => c.utf8Size + byteSize cs

theorem byteSize_append (cs ds : List Char) :
    byteSize (cs ++ ds) = byteSize cs + byteSize ds := by
  induction cs with
  | nil => simp [byteSize]
  | cons c cs ih =>
    simp only [List.cons_append, byteSize, ih]
    omega

theorem byteSize_pos {cs : List Char} (nonempty : cs ≠ []) : 0 < byteSize cs := by
  obtain ⟨c, cs, rfl⟩ := List.exists_cons_of_ne_nil nonempty
  exact Nat.add_pos_left c.utf8Size_pos _

theorem utf8ByteSize_ofList (cs : List Char) : (String.ofList cs).utf8ByteSize = byteSize cs := by
  induction cs with
  | nil => rfl
  | cons c cs ih =>
    have h : String.ofList (c :: cs) = String.singleton c ++ String.ofList cs := by
      simp
    rw [h, String.utf8ByteSize_append, ih, String.utf8ByteSize_singleton, byteSize]

theorem byteSize_toList (s : String) : byteSize s.toList = s.utf8ByteSize := by
  rw [← utf8ByteSize_ofList, String.ofList_toList]

/-- The ranges of code points with the property `White_Space`, ends included. -/
def whiteRanges : List (Nat × Nat) :=
  [(0x9, 0xd), (0x20, 0x20), (0x85, 0x85), (0xa0, 0xa0), (0x1680, 0x1680), (0x2000, 0x200a),
    (0x2028, 0x2029), (0x202f, 0x202f), (0x205f, 0x205f), (0x3000, 0x3000)]

def isWhite (c : Char) : Bool :=
  whiteRanges.any fun range => range.1 ≤ c.toNat && c.toNat ≤ range.2

def trim (text : List Char) : List Char :=
  ((text.dropWhile isWhite).reverse.dropWhile isWhite).reverse

def lineFeed : UInt8 := 10

def carriageReturn : UInt8 := 13

/-- Cuts bytes after every line feed, which stays with its line. What follows the last one is a
line too, unless it is empty. -/
def lines : List UInt8 → List (List UInt8)
  | [] => []
  | b :: bs =>
    if b = lineFeed then [b] :: lines bs
    else
      match lines bs with
      | [] => [[b]]
      | line :: rest => (b :: line) :: rest

def dropFinal? (b : UInt8) (bytes : List UInt8) : Option (List UInt8) :=
  if bytes.getLast? = some b then some bytes.dropLast else none

/-- A line without the line feed that ends it, and without a carriage return right before
that. -/
def body (line : List UInt8) : List UInt8 :=
  match dropFinal? lineFeed line with
  | none => line
  | some bytes => (dropFinal? carriageReturn bytes).getD bytes

/-- The text of a line, if it is valid UTF-8. -/
def decode? (line : List UInt8) : Option String :=
  String.fromUTF8? ⟨(body line).toArray⟩

/-- What a character may belong to: text, an escape sequence of few characters, a control
sequence, the head of a device control string, a control string, or a command to the system. -/
inductive Mode
  | text
  | escape
  | escapeTail
  | sequence
  | deviceEntry
  | deviceParameters
  | deviceTail
  | controlString
  | command
  deriving DecidableEq

def isLayout (c : Char) : Bool :=
  c = '\t' || c = '\n' || c = '\r' || c = '\x0c'

/-- The byte `9C` ends a control string, also inside the encoding of a character. -/
def endsControlString (c : Char) : Bool :=
  (String.utf8EncodeChar c).contains 0x9c

namespace Mode

/-- Whether a character is shown. Layout is shown inside a sequence too. -/
def shows (m : Mode) (c : Char) : Bool :=
  match m with
  | .text => isLayout c || (0x20 ≤ c.toNat && c.toNat ≠ 0x7f)
  | .escape | .escapeTail | .sequence => isLayout c
  | _ => false

/-- What follows a character. An escape starts anew from anywhere, and a cancellation or a
substitution ends whatever it stands in. -/
def next (m : Mode) (c : Char) : Mode :=
  if c.toNat = 0x1b then .escape
  else if c.toNat = 0x18 ∨ c.toNat = 0x1a then .text
  else
    match m with
    | .text => .text
    | .escape =>
      if c.toNat < 0x20 ∨ 0x7f ≤ c.toNat then .escape
      else if c.toNat < 0x30 then .escapeTail
      else if c = '[' then .sequence
      else if c = ']' then .command
      else if c = 'P' then .deviceEntry
      else if c = 'X' ∨ c = '^' ∨ c = '_' then .controlString
      else .text
    | .escapeTail => if 0x30 ≤ c.toNat ∧ c.toNat < 0x7f then .text else .escapeTail
    | .sequence => if 0x40 ≤ c.toNat ∧ c.toNat < 0x7f then .text else .sequence
    | .deviceEntry =>
      if c.toNat < 0x20 ∨ 0x7f ≤ c.toNat then .deviceEntry
      else if c.toNat < 0x30 then .deviceTail
      else if c.toNat < 0x40 then .deviceParameters
      else .controlString
    | .deviceParameters =>
      if c.toNat < 0x20 ∨ 0x7f ≤ c.toNat then .deviceParameters
      else if c.toNat < 0x30 then .deviceTail
      else if c.toNat < 0x3c then .deviceParameters
      else .controlString
    | .deviceTail => if 0x30 ≤ c.toNat ∧ c.toNat < 0x7f then .controlString else .deviceTail
    | .controlString => if endsControlString c then .text else .controlString
    | .command => if c.toNat = 0x07 then .text else .command

end Mode

/-- The characters that are shown of a text that starts in a mode. Once a character is shown, so
are those after it, up to the next control character, and only there does an open sequence go on;
a character beyond ASCII closes it. -/
def shown (mode : Mode) (showing : Bool) : List Char → List Char
  | [] => []
  | c :: cs =>
    if (if showing then Mode.text else mode).shows c then
      c :: shown (if c.toNat < 0x80 then mode else .text) true cs
    else shown (mode.next c) false cs

def plain (text : String) : String :=
  String.ofList (shown .text false text.toList)

end Reckon.Text
