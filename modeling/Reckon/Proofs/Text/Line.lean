import Reckon.Text

/-!
Lines, said without the functions that cut, decode and trim them. Bytes have one cut into lines, a
line is the bytes of at most one text, and a text has one core without white space around it.
-/

set_option autoImplicit false
set_option relaxedAutoImplicit false

namespace Reckon.Text

/-- Bytes as lines, which end before a line feed, or before a carriage return and a line feed. The
bytes after the last line feed are a line of their own, unless there are none. -/
inductive Cuts : List UInt8 → List (List UInt8) → Prop
  | done : Cuts [] []
  | last {line : List UInt8} (nonempty : line ≠ []) (noFeed : lineFeed ∉ line) :
      Cuts line [line]
  | feed {line rest : List UInt8} {bodies : List (List UInt8)} (noFeed : lineFeed ∉ line)
      (noReturn : line.getLast? ≠ some carriageReturn) (more : Cuts rest bodies) :
      Cuts (line ++ lineFeed :: rest) (line :: bodies)
  | returned {line rest : List UInt8} {bodies : List (List UInt8)} (noFeed : lineFeed ∉ line)
      (more : Cuts rest bodies) :
      Cuts (line ++ carriageReturn :: lineFeed :: rest) (line :: bodies)

def encode (text : String) : List UInt8 :=
  text.toUTF8.data.toList

/-- A text is some words with white space around them, and these do not begin or end with white
space. -/
structure Trims (text words : List Char) : Prop where
  around : ∃ left right, text = left ++ words ++ right ∧
    (∀ c ∈ left, isWhite c = true) ∧ ∀ c ∈ right, isWhite c = true
  first : ∀ c, words.head? = some c → isWhite c = false
  last : ∀ c, words.getLast? = some c → isWhite c = false

theorem lines_append_feed {line : List UInt8} (noFeed : lineFeed ∉ line) (rest : List UInt8) :
    lines (line ++ lineFeed :: rest) = (line ++ [lineFeed]) :: lines rest := by
  induction line with
  | nil => rfl
  | cons b bs ih =>
    obtain ⟨here, later⟩ : b ≠ lineFeed ∧ lineFeed ∉ bs := by
      simpa [eq_comm] using noFeed
    rw [List.cons_append, lines, if_neg here, ih later]
    rfl

theorem lines_of_noFeed {line : List UInt8} (nonempty : line ≠ []) (noFeed : lineFeed ∉ line) :
    lines line = [line] := by
  induction line with
  | nil => exact absurd rfl nonempty
  | cons b bs ih =>
    obtain ⟨here, later⟩ : b ≠ lineFeed ∧ lineFeed ∉ bs := by
      simpa [eq_comm] using noFeed
    rw [lines, if_neg here]
    cases bs with
    | nil => rfl
    | cons c cs => rw [ih (List.cons_ne_nil c cs) later]

theorem body_of_noFeed {line : List UInt8} (noFeed : lineFeed ∉ line) : body line = line := by
  have open' : line.getLast? ≠ some lineFeed := by
    intro last
    exact noFeed (List.mem_of_getLast? last)
  rw [body, dropFinal?, if_neg open']

theorem body_append_feed (line : List UInt8) :
    body (line ++ [lineFeed]) = (dropFinal? carriageReturn line).getD line := by
  simp [body, dropFinal?]

theorem body_of_noReturn {line : List UInt8} (noReturn : line.getLast? ≠ some carriageReturn) :
    body (line ++ [lineFeed]) = line := by
  simp [body_append_feed, dropFinal?, noReturn]

theorem body_of_return (line : List UInt8) :
    body (line ++ [carriageReturn] ++ [lineFeed]) = line := by
  rw [body_append_feed]
  simp [dropFinal?]

theorem cuts_lines (bytes : List UInt8) : Cuts bytes ((lines bytes).map body) := by
  -- The first line feed ends the first line, and what follows it is shorter than the whole.
  by_cases among : lineFeed ∈ bytes
  · obtain ⟨line, rest, split, noFeed⟩ := List.eq_append_cons_of_mem among
    have shorter : rest.length < bytes.length := by
      rw [split, List.length_append, List.length_cons]
      omega
    have more := cuts_lines rest
    rw [split, lines_append_feed noFeed, List.map_cons]
    by_cases returns : line.getLast? = some carriageReturn
    · obtain ⟨front, rfl⟩ := List.getLast?_eq_some_iff.mp returns
      have clean : lineFeed ∉ front := fun member => noFeed (List.mem_append_left _ member)
      rw [body_of_return, List.append_assoc]
      exact .returned clean more
    · rw [body_of_noReturn returns]
      exact .feed noFeed returns more
  · cases bytes with
    | nil => exact .done
    | cons b bs =>
      rw [lines_of_noFeed (List.cons_ne_nil b bs) among, List.map_singleton, body_of_noFeed among]
      exact .last (List.cons_ne_nil b bs) among
termination_by bytes.length

/-- There is one way to cut bytes, and it gives the bodies of their lines. -/
theorem cuts_iff {bytes : List UInt8} {bodies : List (List UInt8)} :
    Cuts bytes bodies ↔ bodies = (lines bytes).map body := by
  constructor
  · intro cuts
    induction cuts with
    | done => rfl
    | last nonempty noFeed =>
      rw [lines_of_noFeed nonempty noFeed, List.map_singleton, body_of_noFeed noFeed]
    | feed noFeed noReturn _ ih =>
      rw [lines_append_feed noFeed, List.map_cons, body_of_noReturn noReturn, ← ih]
    | @returned line rest _ noFeed _ ih =>
      have joined : line ++ carriageReturn :: lineFeed :: rest =
          (line ++ [carriageReturn]) ++ lineFeed :: rest := by simp
      have clean : lineFeed ∉ line ++ [carriageReturn] := by
        simpa [noFeed] using (by decide : lineFeed ≠ carriageReturn)
      rw [joined, lines_append_feed clean, List.map_cons, body_of_return, ← ih]
  · rintro rfl
    exact cuts_lines bytes

theorem decode?_eq_some_iff {line : List UInt8} {text : String} :
    decode? line = some text ↔ encode text = body line := by
  unfold decode? String.fromUTF8? encode
  constructor
  · intro found
    split at found
    next valid =>
      cases found
      rfl
    next => cases found
  · intro same
    have bytes : text.toByteArray = ⟨(body line).toArray⟩ := by
      rw [← same]
      rfl
    have valid : ByteArray.IsValidUTF8 ⟨(body line).toArray⟩ := bytes ▸ text.isValidUTF8
    rw [dif_pos valid, Option.some.injEq]
    exact String.toByteArray_inj.mp bytes.symm

theorem encode_ne_of_decode?_eq_none {line : List UInt8} (unread : decode? line = none)
    (text : String) : encode text ≠ body line := by
  intro same
  rw [decode?_eq_some_iff.mpr same] at unread
  cases unread

theorem dropWhile_isWhite {text : List Char}
    (first : ∀ c, text.head? = some c → isWhite c = false) : text.dropWhile isWhite = text := by
  cases text with
  | nil => rfl
  | cons c cs => rw [List.dropWhile_cons, if_neg (by simp [first c rfl])]

theorem isWhite_of_head?_dropWhile {text : List Char} {c : Char}
    (head : (text.dropWhile isWhite).head? = some c) : isWhite c = false := by
  have stops := List.head?_dropWhile_not isWhite text
  rw [head] at stops
  exact stops

theorem trim_of_trims {text words : List Char} (trims : Trims text words) : trim text = words := by
  obtain ⟨⟨left, right, rfl, before, after⟩, first, last⟩ := trims
  rw [trim, List.append_assoc, List.dropWhile_append_of_pos before]
  cases words with
  | nil =>
    have blank := @List.dropWhile_append_of_pos _ isWhite right [] after
    rw [List.append_nil] at blank
    rw [List.nil_append, blank]
    rfl
  | cons c cs =>
    have front : (c :: cs ++ right).dropWhile isWhite = c :: cs ++ right := dropWhile_isWhite first
    have back : (c :: cs).reverse.dropWhile isWhite = (c :: cs).reverse := by
      apply dropWhile_isWhite
      rwa [List.head?_reverse]
    rw [front, List.reverse_append, List.dropWhile_append_of_pos (by simpa using after), back,
      List.reverse_reverse]

theorem trims_trim (text : List Char) : Trims text (trim text) := by
  have white (part : List Char) : ∀ c ∈ part.takeWhile isWhite, isWhite c = true :=
    List.all_eq_true.mp List.all_takeWhile
  let right := ((text.dropWhile isWhite).reverse.takeWhile isWhite).reverse
  have back : text.dropWhile isWhite = trim text ++ right := by
    rw [trim, ← List.reverse_append, List.takeWhile_append_dropWhile, List.reverse_reverse]
  refine ⟨⟨text.takeWhile isWhite, right, ?_, white text, ?_⟩, ?_, ?_⟩
  · rw [List.append_assoc, ← back, List.takeWhile_append_dropWhile]
  · intro c member
    exact white _ c (List.mem_reverse.mp member)
  · intro c head
    apply @isWhite_of_head?_dropWhile text
    rw [back, List.head?_append, head, Option.some_or]
  · intro c last
    rw [trim, List.getLast?_reverse] at last
    exact isWhite_of_head?_dropWhile last

theorem trims_iff {text words : List Char} : Trims text words ↔ trim text = words := by
  constructor
  · exact trim_of_trims
  · rintro rfl
    exact trims_trim text

theorem trims_unique {text words others : List Char} (trims : Trims text words)
    (also : Trims text others) : words = others :=
  (trim_of_trims trims).symm.trans (trim_of_trims also)

theorem trims_toList_iff {text words : String} :
    Trims text.toList words.toList ↔ String.ofList (trim text.toList) = words := by
  rw [trims_iff, ← String.toList_inj, String.toList_ofList]

instance (text words : List Char) : Decidable (Trims text words) :=
  decidable_of_iff _ trims_iff.symm

end Reckon.Text
