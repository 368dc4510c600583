import Mathlib.Logic.Relation
import Reckon.Proofs.Token.Tiling

/-!
Lexing as rules. A cursor in a text passes a blank, or takes the longest text that a pattern matches
as a token, or reports a character at which no pattern matches. Some rule applies until the end is
reached, and only one piece can be at the front of a text, so that the rules determine the tokens
and the stray characters of a text; and lexing gives these.
-/

set_option autoImplicit false
set_option relaxedAutoImplicit false

namespace Reckon

namespace Token.Kind

section

variable {kind other : Token.Kind} {text more rest later : List Char} {c : Char}

theorem Matches.isBlank_eq_false (spelled : kind.Matches (c :: rest)) :
    Piece.isBlank c = false := by
  cases blank : Piece.isBlank c with
  | false => rfl
  | true =>
    obtain ⟨noDigit, noWord, noSingle, noDouble⟩ : c.isDigit = false ∧
        Piece.startsWord c = false ∧ Piece.single? c = none ∧ ∀ d, Piece.double? c d = none := by
      rcases Piece.eq_of_isBlank blank with rfl | rfl | rfl | rfl | rfl <;>
        exact ⟨rfl, rfl, rfl, fun d => by simp [Piece.double?]⟩
    rcases spelled.of_symbol (by simp [noDigit]) (by simp [noWord]) with
      ⟨-, single⟩ | ⟨d, -, double⟩
    · rw [noSingle] at single
      cases single
    · rw [noDouble] at double
      cases double

theorem LongestMatch.unique (left : kind.LongestMatch text rest)
    (right : other.LongestMatch more later) (same : text ++ rest = more ++ later) :
    kind = other ∧ text = more := by
  obtain rfl : text = more := by
    -- Of two texts at the same front, the longer one would go on where the shorter one may not.
    rcases List.append_eq_append_iff.mp same with ⟨gap, rfl, rfl⟩ | ⟨gap, rfl, rfl⟩
    · by_cases empty : gap = []
      · rw [empty, List.append_nil]
      · exact absurd right.spelled (left.longest other gap empty (List.prefix_append gap later))
    · by_cases empty : gap = []
      · rw [empty, List.append_nil]
      · exact absurd left.spelled (right.longest kind gap empty (List.prefix_append gap rest))
  refine ⟨?_, rfl⟩
  rcases right.chosen kind left.spelled with here | identifier
  · exact here
  · rcases left.chosen other right.spelled with there | same
    · exact there.symm
    · rw [identifier, same]

theorem LongestMatch.of_cons (longest : kind.LongestMatch text rest)
    (same : text ++ rest = c :: later) :
    Piece.isBlank c = false ∧ ¬ Unmatched (c :: later) := by
  obtain ⟨d, ds, rfl⟩ := List.exists_cons_of_ne_nil longest.spelled.ne_nil
  obtain ⟨rfl, rfl⟩ := List.cons.inj same
  refine ⟨longest.spelled.isBlank_eq_false, fun unmatched => ?_⟩
  exact unmatched kind (d :: ds) (List.prefix_append (d :: ds) rest) longest.spelled

theorem LongestMatch.kind_of_word (longest : kind.LongestMatch text rest)
    (word : identifier.Matches text) :
    (kind = .trueWord ↔ text = trueWord.spelling) ∧
    (kind = .falseWord ↔ text = falseWord.spelling) ∧
    (kind = .identifier ↔ text ≠ trueWord.spelling ∧ text ≠ falseWord.spelling) := by
  have reserved (fixed : Token.Kind) (spelled : fixed.spelling ≠ []) :
      kind = fixed ↔ text = fixed.spelling := by
    constructor
    · rintro rfl
      exact longest.spelled.eq_spelling spelled
    · rintro rfl
      rcases longest.chosen fixed (.fixed spelled) with same | rfl
      · exact same.symm
      · exact absurd rfl spelled
  refine ⟨reserved .trueWord (by decide), reserved .falseWord (by decide), ?_, ?_⟩
  · rintro rfl
    constructor
    · intro spelled
      cases (reserved .trueWord (by decide)).mpr spelled
    · intro spelled
      cases (reserved .falseWord (by decide)).mpr spelled
  · rintro ⟨noTrue, noFalse⟩
    cases word with
    | identifier starts _ =>
      rcases (longest.spelled.of_startsWord starts).2 with same | same
      · exact same
      · have plain : Piece.word _ = .lexeme .identifier _ :=
          (if_neg noTrue).trans (if_neg noFalse)
        cases plain.symm.trans same
        rfl
    | fixed spelled => exact absurd rfl spelled

end

end Token.Kind

namespace Piece

variable {piece other : Piece} {rest later : List Char}

theorem Leads.chars_ne_nil (leads : piece.Leads rest) : piece.chars ≠ [] := by
  cases piece with
  | blank c => exact List.cons_ne_nil _ _
  | lexeme kind text => exact leads.spelled.ne_nil
  | stray c => exact List.cons_ne_nil _ _

theorem Leads.unique (left : piece.Leads rest) (right : other.Leads later)
    (same : piece.chars ++ rest = other.chars ++ later) : piece = other := by
  cases piece with
  | blank c =>
    have blank : isBlank c = true := left
    cases other with
    | blank d =>
      obtain ⟨rfl, -⟩ := List.cons.inj same
      rfl
    | lexeme kind text =>
      have noBlank := (right.of_cons same.symm).1
      simp [blank] at noBlank
    | stray d =>
      obtain ⟨rfl, -⟩ := List.cons.inj same
      have noBlank := right.1
      simp [blank] at noBlank
  | lexeme kind text =>
    cases other with
    | blank d =>
      have blank : isBlank d = true := right
      have noBlank := (left.of_cons same).1
      simp [blank] at noBlank
    | lexeme _ _ =>
      obtain ⟨rfl, rfl⟩ := left.unique right same
      rfl
    | stray d => exact absurd right.2 (left.of_cons same).2
  | stray c =>
    cases other with
    | blank d =>
      obtain ⟨rfl, -⟩ := List.cons.inj same
      have blank : isBlank c = true := right
      have noBlank := left.1
      simp [blank] at noBlank
    | lexeme kind text => exact absurd left.2 (right.of_cons same.symm).2
    | stray d =>
      obtain ⟨rfl, -⟩ := List.cons.inj same
      rfl

theorem cut_of_leads (leads : piece.Leads rest) :
    cut (piece.chars ++ rest) = piece :: cut rest := by
  obtain ⟨c, cs, chars⟩ := List.exists_cons_of_ne_nil leads.chars_ne_nil
  obtain ⟨later, whole, front⟩ := first_leads c (cs ++ rest)
  have text : piece.chars ++ rest = c :: (cs ++ rest) := by
    rw [chars, List.cons_append]
  have first : first c (cs ++ rest) = piece := front.unique leads (whole.symm.trans text.symm)
  rw [text, cut, first, ← text, List.drop_left]

end Piece

theorem Placed.mem_run_cut_iff {start : Nat} {piece : Piece} {text : List Char} :
    ⟨start, piece⟩ ∈ run start (Piece.cut text) ↔
      ∃ rest, text = piece.chars ++ rest ∧ piece.Leads rest := by
  constructor
  · intro member
    have cuts := Piece.cuts_cut text
    generalize Piece.cut text = pieces at cuts member
    cases cuts with
    | nil => cases member
    | @cons first rest pieces nonempty leads _ =>
      rcases List.mem_cons.mp member with here | beyond
      · obtain rfl : piece = first := congrArg Placed.piece here
        exact ⟨rest, rfl, leads⟩
      · have size : 0 < first.byteSize := Text.byteSize_pos nonempty
        have later : start + first.byteSize ≤ start := le_start_of_mem_run beyond
        omega
  · rintro ⟨rest, rfl, leads⟩
    rw [Piece.cut_of_leads leads]
    exact List.mem_cons_self

def Placed.stray? (p : Placed) : Option Diagnostic :=
  p.diagnostic?.filter fun d => d.stray?.isSome

theorem Placed.stray?_lexeme (start : Nat) (kind : Token.Kind) (text : List Char) :
    stray? ⟨start, .lexeme kind text⟩ = none := by
  simp only [stray?, diagnostic?, problem?]
  split <;> rfl

theorem Placed.stray?_eq_some_iff {p : Placed} {d : Diagnostic} :
    p.stray? = some d ↔
      ∃ c, p.piece = .stray c ∧ d = .error p.span (.badCharacter (String.singleton c)) := by
  obtain ⟨start, piece⟩ := p
  cases piece with
  | blank c => simp [stray?, diagnostic?, problem?]
  | lexeme kind text => simp [stray?_lexeme]
  | stray c =>
    have reported : stray? ⟨start, .stray c⟩ =
        some (.error (span ⟨start, .stray c⟩) (.badCharacter (String.singleton c))) := rfl
    simp [reported, eq_comm]

namespace Lexed

def badCharacters (lexed : Lexed) : List Diagnostic :=
  lexed.diagnostics.filter fun d => d.stray?.isSome

structure Cursor where
  offset : Nat
  ahead : List Char
  tokens : List Token
  strays : List Diagnostic

def Cursor.start (text : String) : Cursor :=
  ⟨0, text.toList, [], []⟩

/-- The rules of reading. A blank is passed; the longest text that a pattern matches is a token; and
a character at which no pattern matches is reported, unless it is a blank. -/
inductive Munch : Cursor → Cursor → Prop
  | blank {offset : Nat} {c : Char} {rest : List Char} {tokens : List Token}
      {strays : List Diagnostic} (blank : Piece.isBlank c = true) :
      Munch ⟨offset, c :: rest, tokens, strays⟩ ⟨offset + c.utf8Size, rest, tokens, strays⟩
  | token {offset : Nat} {kind : Token.Kind} {text rest : List Char} {tokens : List Token}
      {strays : List Diagnostic} (longest : kind.LongestMatch text rest) :
      Munch ⟨offset, text ++ rest, tokens, strays⟩
        ⟨offset + Text.byteSize text, rest,
          tokens ++ [⟨kind, ⟨offset, Text.byteSize text⟩, String.ofList text,
            Placed.literal kind text⟩], strays⟩
  | stray {offset : Nat} {c : Char} {rest : List Char} {tokens : List Token}
      {strays : List Diagnostic} (noBlank : Piece.isBlank c = false)
      (unmatched : Token.Kind.Unmatched (c :: rest)) :
      Munch ⟨offset, c :: rest, tokens, strays⟩
        ⟨offset + c.utf8Size, rest, tokens,
          strays ++ [.error ⟨offset, c.utf8Size⟩ (.badCharacter (String.singleton c))]⟩

abbrev Munches : Cursor → Cursor → Prop :=
  Relation.ReflTransGen Munch

def Cursor.pass (c : Cursor) (piece : Piece) (rest : List Char) : Cursor where
  offset := c.offset + piece.byteSize
  ahead := rest
  tokens := c.tokens ++ (Placed.mk c.offset piece).token?.toList
  strays := c.strays ++ (Placed.mk c.offset piece).stray?.toList

section

variable (c : Cursor) (rest : List Char)

theorem Cursor.pass_blank (b : Char) :
    c.pass (.blank b) rest = ⟨c.offset + b.utf8Size, rest, c.tokens, c.strays⟩ := by
  simp [pass, Placed.token?, Placed.stray?, Placed.diagnostic?, Placed.problem?, Piece.byteSize,
    Piece.chars, Text.byteSize]

theorem Cursor.pass_lexeme (kind : Token.Kind) (text : List Char) :
    c.pass (.lexeme kind text) rest =
      ⟨c.offset + Text.byteSize text, rest,
        c.tokens ++ [⟨kind, ⟨c.offset, Text.byteSize text⟩, String.ofList text,
          Placed.literal kind text⟩], c.strays⟩ := by
  simp [pass, Placed.stray?_lexeme, Placed.token?, Placed.span, Piece.byteSize, Piece.chars]

theorem Cursor.pass_stray (b : Char) :
    c.pass (.stray b) rest =
      ⟨c.offset + b.utf8Size, rest, c.tokens,
        c.strays ++ [.error ⟨c.offset, b.utf8Size⟩ (.badCharacter (String.singleton b))]⟩ := by
  have reported := Placed.stray?_eq_some_iff.mpr
    ⟨b, (rfl : (Placed.mk c.offset (.stray b)).piece = .stray b), rfl⟩
  simp [pass, reported, Placed.token?, Placed.span, Piece.byteSize, Piece.chars, Text.byteSize]

end

theorem munch_iff {c d : Cursor} :
    Munch c d ↔
      ∃ piece rest, piece.Leads rest ∧ c.ahead = piece.chars ++ rest ∧ d = c.pass piece rest := by
  constructor
  · rintro (blank | longest | ⟨noBlank, unmatched⟩)
    · exact ⟨.blank _, _, blank, rfl, by rw [Cursor.pass_blank]⟩
    · exact ⟨.lexeme _ _, _, longest, rfl, by rw [Cursor.pass_lexeme]⟩
    · exact ⟨.stray _, _, ⟨noBlank, unmatched⟩, rfl, by rw [Cursor.pass_stray]⟩
  · obtain ⟨offset, ahead, tokens, strays⟩ := c
    rintro ⟨piece, rest, leads, rfl, rfl⟩
    cases piece with
    | blank b =>
      rw [Cursor.pass_blank]
      exact .blank leads
    | lexeme kind text =>
      rw [Cursor.pass_lexeme]
      exact .token leads
    | stray b =>
      rw [Cursor.pass_stray]
      exact .stray leads.1 leads.2

/-- A cursor on its way through a text: the pieces of the text are those that were passed, in which
all was found, and those that the characters ahead are cut into. -/
structure Cursor.Along (text : String) (c : Cursor) (passed : List Placed) : Prop where
  pieces : Placed.ofText text = passed ++ Placed.run c.offset (Piece.cut c.ahead)
  behind : ∀ p ∈ passed, p.span.stop ≤ c.offset
  left : c.offset + Text.byteSize c.ahead = text.utf8ByteSize
  tokens : c.tokens = passed.filterMap Placed.token?
  strays : c.strays = passed.filterMap Placed.stray?

theorem Cursor.along_start (text : String) : (start text).Along text [] where
  pieces := rfl
  behind := by
    intro p member
    cases member
  left := by
    rw [start, Nat.zero_add, Text.byteSize_toList]
  tokens := rfl
  strays := rfl

theorem Munch.along {text : String} {c d : Cursor} (munch : Munch c d) {passed : List Placed}
    (along : c.Along text passed) : ∃ p, d.Along text (passed ++ [p]) := by
  obtain ⟨piece, rest, leads, ahead, rfl⟩ := munch_iff.mp munch
  refine ⟨⟨c.offset, piece⟩, ?_, ?_, ?_, ?_, ?_⟩
  · rw [along.pieces, ahead, Piece.cut_of_leads leads, Placed.run, List.append_assoc]
    rfl
  · intro p member
    rcases List.mem_append.mp member with before | here
    · exact Nat.le_trans (along.behind p before) (Nat.le_add_right _ _)
    · obtain rfl := List.mem_singleton.mp here
      exact Nat.le_refl _
  · rw [← along.left, ahead, Text.byteSize_append]
    exact Nat.add_assoc _ _ _
  · rw [List.filterMap_append, ← along.tokens]
    rfl
  · rw [List.filterMap_append, ← along.strays]
    rfl

theorem Munches.along {text : String} {c : Cursor} (munches : Munches (.start text) c) :
    ∃ passed, c.Along text passed := by
  induction munches with
  | refl => exact ⟨[], Cursor.along_start text⟩
  | tail _ munch ih =>
    obtain ⟨passed, along⟩ := ih
    obtain ⟨p, later⟩ := munch.along along
    exact ⟨_, later⟩

theorem munches_of_cuts {text : List Char} {pieces : List Piece} (cuts : Piece.Cuts text pieces)
    (c : Cursor) (ahead : c.ahead = text) : ∃ d, Munches c d ∧ d.ahead = [] := by
  induction cuts generalizing c with
  | nil => exact ⟨c, .refl, ahead⟩
  | @cons piece rest pieces _ leads _ ih =>
    obtain ⟨d, munches, done⟩ := ih (c.pass piece rest) rfl
    exact ⟨d, .head (munch_iff.mpr ⟨piece, rest, leads, ahead, rfl⟩) munches, done⟩

private theorem exists_munches_of_mem_run {text : List Char} {pieces : List Piece}
    (cuts : Piece.Cuts text pieces) (c : Cursor) (ahead : c.ahead = text) {p : Placed}
    (member : p ∈ Placed.run c.offset pieces) : ∃ d, Munches c d ∧ d.offset = p.start := by
  induction cuts generalizing c with
  | nil => cases member
  | @cons piece rest pieces _ leads _ ih =>
    rcases List.mem_cons.mp member with rfl | later
    · exact ⟨c, .refl, rfl⟩
    · obtain ⟨d, munches, place⟩ := ih (c.pass piece rest) rfl later
      exact ⟨d, .head (munch_iff.mpr ⟨piece, rest, leads, ahead, rfl⟩) munches, place⟩

theorem exists_munches_of_mem_ofText {text : String} {p : Placed}
    (member : p ∈ Placed.ofText text) : ∃ c, Munches (.start text) c ∧ c.offset = p.start :=
  exists_munches_of_mem_run (Piece.cuts_cut text.toList) (.start text) rfl member

theorem badCharacters_ofText (text : String) :
    (ofText text).badCharacters = (Placed.ofText text).filterMap Placed.stray? :=
  List.filter_filterMap

theorem Munches.eq_of_ahead_eq_nil {text : String} {c : Cursor}
    (munches : Munches (.start text) c) (done : c.ahead = []) :
    c = ⟨text.utf8ByteSize, [], (ofText text).tokens, (ofText text).badCharacters⟩ := by
  obtain ⟨passed, along⟩ := munches.along
  obtain ⟨offset, ahead, tokens, strays⟩ := c
  obtain rfl : ahead = [] := done
  have pieces : Placed.ofText text = passed := by
    simpa [Piece.cut, Placed.run] using along.pieces
  have offset : offset = text.utf8ByteSize := along.left
  have tokens : tokens = (ofText text).tokens := by
    rw [ofText, pieces]
    exact along.tokens
  have strays : strays = (ofText text).badCharacters := by
    rw [badCharacters_ofText, pieces]
    exact along.strays
  rw [offset, tokens, strays]

theorem Munches.mem_ofText_iff {text : String} {c : Cursor} (munches : Munches (.start text) c)
    (piece : Piece) :
    ⟨c.offset, piece⟩ ∈ Placed.ofText text ↔
      ∃ rest, c.ahead = piece.chars ++ rest ∧ piece.Leads rest := by
  obtain ⟨passed, along⟩ := munches.along
  have ahead : ⟨c.offset, piece⟩ ∉ passed := by
    intro before
    have member : ⟨c.offset, piece⟩ ∈ Placed.ofText text := by
      rw [along.pieces]
      exact List.mem_append_left _ before
    have positive := Placed.length_span_pos member
    have stop : c.offset + (Placed.mk c.offset piece).span.length ≤ c.offset :=
      along.behind _ before
    omega
  rw [along.pieces, List.mem_append, or_iff_right ahead, Placed.mem_run_cut_iff]

/-- A text is read to its end, and in one way. -/
theorem munches_iff {text : String} {c : Cursor} (done : c.ahead = []) :
    Munches (.start text) c ↔
      c = ⟨text.utf8ByteSize, [], (ofText text).tokens, (ofText text).badCharacters⟩ := by
  constructor
  · intro munches
    exact munches.eq_of_ahead_eq_nil done
  · rintro rfl
    obtain ⟨d, munches, ended⟩ := munches_of_cuts (Piece.cuts_cut _) (.start text) rfl
    rwa [munches.eq_of_ahead_eq_nil ended] at munches

theorem exists_munches_of_found {text : String} {span : Span}
    (found : span ∈ (ofText text).tokens.map Token.span ++
      (ofText text).badCharacters.map Diagnostic.span) :
    ∃ c, Munches (.start text) c ∧ c.offset = span.start := by
  obtain ⟨p, among, rfl⟩ : ∃ p ∈ Placed.ofText text, p.span = span := by
    rcases List.mem_append.mp found with inside | stray
    · obtain ⟨token, member, rfl⟩ := List.mem_map.mp inside
      obtain ⟨p, among, _, _, -, rfl⟩ := mem_tokens_iff.mp member
      exact ⟨p, among, rfl⟩
    · obtain ⟨d, member, rfl⟩ := List.mem_map.mp stray
      rw [badCharacters_ofText] at member
      obtain ⟨p, among, reported⟩ := List.mem_filterMap.mp member
      obtain ⟨_, -, rfl⟩ := Placed.stray?_eq_some_iff.mp reported
      exact ⟨p, among, rfl⟩
  exact exists_munches_of_mem_ofText among

section

variable {text : String} {c : Cursor} (munches : Munches (.start text) c)

include munches

theorem Munches.mem_tokens_iff {token : Token} :
    token ∈ (ofText text).tokens ∧ token.span.start = c.offset ↔
      ∃ chars rest, c.ahead = chars ++ rest ∧ token.kind.LongestMatch chars rest ∧
        token = ⟨token.kind, ⟨c.offset, Text.byteSize chars⟩, String.ofList chars,
          Placed.literal token.kind chars⟩ := by
  constructor
  · rintro ⟨member, start⟩
    obtain ⟨⟨offset, piece⟩, among, kind, chars, rfl, rfl⟩ := Lexed.mem_tokens_iff.mp member
    obtain rfl : offset = c.offset := start
    obtain ⟨rest, ahead, leads⟩ := (munches.mem_ofText_iff _).mp among
    exact ⟨chars, rest, ahead, leads, rfl⟩
  · rintro ⟨chars, rest, ahead, longest, same⟩
    have among := (munches.mem_ofText_iff (.lexeme token.kind chars)).mpr ⟨rest, ahead, longest⟩
    refine ⟨Lexed.mem_tokens_iff.mpr ⟨_, among, token.kind, chars, rfl, same⟩, ?_⟩
    rw [same]

theorem Munches.mem_badCharacters_iff {d : Diagnostic} :
    d ∈ (ofText text).badCharacters ∧ d.span.start = c.offset ↔
      ∃ b rest, c.ahead = b :: rest ∧ Piece.isBlank b = false ∧
        Token.Kind.Unmatched (b :: rest) ∧
          d = .error ⟨c.offset, b.utf8Size⟩ (.badCharacter (String.singleton b)) := by
  rw [badCharacters_ofText, List.mem_filterMap]
  constructor
  · rintro ⟨⟨⟨offset, piece⟩, among, found⟩, start⟩
    obtain ⟨b, rfl, rfl⟩ := Placed.stray?_eq_some_iff.mp found
    obtain rfl : offset = c.offset := start
    obtain ⟨rest, ahead, noBlank, unmatched⟩ := (munches.mem_ofText_iff _).mp among
    exact ⟨b, rest, ahead, noBlank, unmatched, rfl⟩
  · rintro ⟨b, rest, ahead, noBlank, unmatched, rfl⟩
    have among := (munches.mem_ofText_iff (.stray b)).mpr ⟨rest, ahead, noBlank, unmatched⟩
    exact ⟨⟨_, among, Placed.stray?_eq_some_iff.mpr ⟨b, rfl, rfl⟩⟩, rfl⟩

end

/-- What lexing finds is what the rules of the longest match find. A text is read by these rules in
one way, and all that is found is found where a cursor gets to. There a token is found exactly if it
is the longest match, and a character is reported exactly if no pattern matches and it is no blank;
and of the words, two are reserved. -/
structure MaximalMunch (lexed : Lexed) (text : String) : Prop where
  determined : ∀ c : Cursor, c.ahead = [] →
    (Munches (.start text) c ↔
      c = ⟨text.utf8ByteSize, [], lexed.tokens, lexed.badCharacters⟩)
  visited : ∀ span ∈ lexed.tokens.map Token.span ++ lexed.badCharacters.map Diagnostic.span,
    ∃ c : Cursor, Munches (.start text) c ∧ c.offset = span.start
  token : ∀ c : Cursor, Munches (.start text) c → ∀ token : Token,
    token ∈ lexed.tokens ∧ token.span.start = c.offset ↔
      ∃ chars rest, c.ahead = chars ++ rest ∧ token.kind.LongestMatch chars rest ∧
        token = ⟨token.kind, ⟨c.offset, Text.byteSize chars⟩, String.ofList chars,
          Placed.literal token.kind chars⟩
  stray : ∀ c : Cursor, Munches (.start text) c → ∀ d : Diagnostic,
    d ∈ lexed.badCharacters ∧ d.span.start = c.offset ↔
      ∃ b rest, c.ahead = b :: rest ∧ Piece.isBlank b = false ∧
        Token.Kind.Unmatched (b :: rest) ∧
          d = .error ⟨c.offset, b.utf8Size⟩ (.badCharacter (String.singleton b))
  word : ∀ token ∈ lexed.tokens, Token.Kind.identifier.Matches token.text.toList →
    (token.kind = .trueWord ↔ token.text = "true") ∧
    (token.kind = .falseWord ↔ token.text = "false") ∧
    (token.kind = .identifier ↔ token.text ≠ "true" ∧ token.text ≠ "false")

/-- Lexing is by the longest match, for every text. -/
theorem ofText_maximalMunch (text : String) : (ofText text).MaximalMunch text where
  determined _ done := munches_iff done
  visited _ found := exists_munches_of_found found
  token _ munches _ := munches.mem_tokens_iff
  stray _ munches _ := munches.mem_badCharacters_iff
  word := by
    intro token member word
    obtain ⟨_, _, -, -, longest⟩ := longestMatch_of_mem_tokens member
    have spelled (s : String) : token.text = s ↔ token.text.toList = s.toList :=
      String.toList_inj.symm
    simp only [ne_eq, spelled]
    exact longest.kind_of_word word

end Lexed

end Reckon
