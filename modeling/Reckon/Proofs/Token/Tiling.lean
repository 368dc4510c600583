import Reckon.Proofs.Token.Pattern

/-!
Places of tokens. The tokens of a text and its stray characters stand one after another, with
nothing but blanks between them, so that lexing loses nothing of a text; and what it reports is
exactly the stray characters and the numbers out of range, each of them once.
-/

set_option autoImplicit false
set_option relaxedAutoImplicit false

namespace Reckon

namespace Span

structure Splits (span : Span) (text before part after : String) : Prop where
  whole : text = before ++ part ++ after
  start : span.start = before.utf8ByteSize
  length : span.length = part.utf8ByteSize

def Slices (span : Span) (text part : String) : Prop :=
  ∃ before after, span.Splits text before part after

theorem Slices.stop_le {span : Span} {text part : String} (slices : span.Slices text part) :
    span.stop ≤ text.utf8ByteSize := by
  obtain ⟨before, after, whole, start, length⟩ := slices
  rw [whole, String.utf8ByteSize_append, String.utf8ByteSize_append]
  simp only [stop]
  omega

/-- From an offset on, the characters of a text are covered by spans one after another. No span is
empty, and outside of them there are only blanks. -/
inductive Tiles : Nat → List Char → List Span → Prop
  | done (start : Nat) : Tiles start [] []
  | blank {start : Nat} {c : Char} {rest : List Char} {spans : List Span}
      (blank : Piece.isBlank c = true) (more : Tiles (start + c.utf8Size) rest spans) :
      Tiles start (c :: rest) spans
  | tile {start : Nat} {part rest : List Char} {spans : List Span} (nonempty : part ≠ [])
      (more : Tiles (start + Text.byteSize part) rest spans) :
      Tiles start (part ++ rest) (⟨start, Text.byteSize part⟩ :: spans)

end Span

namespace Placed

section

variable {start : Nat} {text : List Char} {pieces : List Piece}

theorem of_mem_run (cuts : Piece.Cuts text pieces) {p : Placed} (member : p ∈ run start pieces) :
    ∃ before after, text = before ++ (p.piece.chars ++ after) ∧
      p.start = start + Text.byteSize before ∧ p.piece.chars ≠ [] ∧ p.piece.Leads after := by
  induction cuts generalizing start with
  | nil => cases member
  | @cons piece rest pieces nonempty leads _ ih =>
    rcases List.mem_cons.mp member with rfl | member
    · exact ⟨[], rest, rfl, rfl, nonempty, leads⟩
    · obtain ⟨before, after, split, place, later⟩ := ih member
      refine ⟨piece.chars ++ before, after, ?_, ?_, later⟩
      · rw [split, List.append_assoc]
      · rw [place, Text.byteSize_append, Piece.byteSize, Nat.add_assoc]

theorem exists_mem_run (cuts : Piece.Cuts text pieces) {before after : List Char} {c : Char}
    (split : text = before ++ c :: after) :
    ∃ p ∈ run start pieces, ∃ left right, p.piece.chars = left ++ c :: right ∧
      p.start + Text.byteSize left = start + Text.byteSize before := by
  induction cuts generalizing start before with
  | nil => simp at split
  | @cons piece rest pieces _ _ _ ih =>
    have later : ∀ gap, rest = gap ++ c :: after → before = piece.chars ++ gap →
        ∃ p ∈ run start (piece :: pieces), ∃ left right, p.piece.chars = left ++ c :: right ∧
          p.start + Text.byteSize left = start + Text.byteSize before := by
      intro gap split front
      obtain ⟨p, member, left, right, chars, place⟩ := @ih (start + piece.byteSize) gap split
      refine ⟨p, List.mem_cons_of_mem _ member, left, right, chars, ?_⟩
      rw [place, front, Text.byteSize_append, Piece.byteSize, Nat.add_assoc]
    rcases List.append_eq_append_iff.mp split with ⟨gap, front, back⟩ | ⟨part, front, back⟩
    · exact later gap back front
    · cases part with
      | nil => exact later [] back.symm (by simpa using front.symm)
      | cons d ds =>
        obtain ⟨rfl, -⟩ := List.cons.inj back
        exact ⟨⟨start, piece⟩, List.mem_cons_self, before, ds, front, rfl⟩

theorem le_start_of_mem_run {p : Placed} (member : p ∈ run start pieces) : start ≤ p.start := by
  induction pieces generalizing start with
  | nil => cases member
  | cons piece pieces ih =>
    rcases List.mem_cons.mp member with rfl | member
    · exact Nat.le_refl _
    · exact Nat.le_trans (Nat.le_add_right _ _) (ih member)

theorem pairwise_run (start : Nat) (pieces : List Piece) :
    (run start pieces).Pairwise fun p q => p.span.stop ≤ q.span.start := by
  induction pieces generalizing start with
  | nil => exact .nil
  | cons piece pieces ih => exact .cons (fun _ member => le_start_of_mem_run member) (ih _)

end

def mark? (p : Placed) : Option Span :=
  match p.piece with
  | .blank _ => none
  | _ => some p.span

theorem eq_span_of_mark? {p : Placed} {s : Span} (found : p.mark? = some s) : p.span = s := by
  unfold mark? at found
  split at found
  · cases found
  · exact Option.some.inj found

theorem tiles_run {text : List Char} {pieces : List Piece} (cuts : Piece.Cuts text pieces)
    (start : Nat) : Span.Tiles start text ((run start pieces).filterMap mark?) := by
  induction cuts generalizing start with
  | nil => exact .done start
  | @cons piece rest pieces nonempty leads _ ih =>
    have more := ih (start + piece.byteSize)
    cases piece with
    | blank c => exact .blank leads more
    | lexeme kind text => exact .tile nonempty more
    | stray c => exact .tile nonempty more

theorem of_mem_ofText {text : String} {p : Placed} (member : p ∈ ofText text) :
    ∃ before after, p.span.Splits text before (String.ofList p.piece.chars) after ∧
      p.piece.chars ≠ [] ∧ p.piece.Leads after.toList := by
  obtain ⟨before, after, whole, place, nonempty, leads⟩ :=
    of_mem_run (Piece.cuts_cut text.toList) member
  refine ⟨String.ofList before, String.ofList after, ⟨?_, ?_, ?_⟩, nonempty, ?_⟩
  · rw [← String.ofList_append, ← String.ofList_append, List.append_assoc, ← whole,
      String.ofList_toList]
  · rw [Text.utf8ByteSize_ofList, span, place, Nat.zero_add]
  · rw [Text.utf8ByteSize_ofList, span, Piece.byteSize]
  · rwa [String.toList_ofList]

theorem eq_or_apart {text : String} {p q : Placed} (hp : p ∈ ofText text) (hq : q ∈ ofText text) :
    p = q ∨ p.span.stop ≤ q.span.start ∨ q.span.stop ≤ p.span.start := by
  have ordered : (ofText text).Pairwise fun p q => p.span.stop ≤ q.span.start := pairwise_run _ _
  have apart : (ofText text).Pairwise fun p q =>
      p = q ∨ p.span.stop ≤ q.span.start ∨ q.span.stop ≤ p.span.start :=
    ordered.imp fun before => .inr (.inl before)
  exact apart.forall_of_forall_of_flip (fun _ _ => .inl rfl)
    (ordered.imp fun before => .inr (.inr before)) hp hq

theorem length_span_pos {text : String} {p : Placed} (member : p ∈ ofText text) :
    0 < p.span.length := by
  obtain ⟨_, _, -, nonempty, -⟩ := of_mem_ofText member
  exact Text.byteSize_pos nonempty

theorem token?_eq_some_iff {p : Placed} {token : Token} :
    p.token? = some token ↔ ∃ kind chars, p.piece = .lexeme kind chars ∧
      token = ⟨kind, p.span, String.ofList chars, literal kind chars⟩ := by
  unfold token?
  constructor
  · intro found
    split at found
    next kind chars piece => exact ⟨kind, chars, piece, (Option.some.inj found).symm⟩
    next => cases found
  · rintro ⟨kind, chars, piece, rfl⟩
    rw [piece]

theorem diagnostic?_eq_some_iff {p : Placed} {d : Diagnostic} :
    p.diagnostic? = some d ↔
      (∃ c, p.piece = .stray c ∧ d = .error p.span (.badCharacter (String.singleton c))) ∨
      ∃ chars, p.piece = .lexeme .number chars ∧ decimal? chars = none ∧
        d = .error p.span (.numberOutOfRange (String.ofList chars)) := by
  rw [diagnostic?, Option.map_eq_some_iff]
  constructor
  · rintro ⟨problem, found, rfl⟩
    unfold problem? at found
    split at found
    next => cases found
    next kind chars piece =>
      split at found
      next wrong =>
        obtain ⟨rfl, outside⟩ := wrong
        cases found
        exact .inr ⟨chars, piece, outside, rfl⟩
      next => cases found
    next c piece =>
      cases found
      exact .inl ⟨c, piece, rfl⟩
  · rintro (⟨c, piece, rfl⟩ | ⟨chars, piece, outside, rfl⟩)
    · exact ⟨_, by rw [problem?, piece], rfl⟩
    · refine ⟨.numberOutOfRange (String.ofList chars), ?_, rfl⟩
      simp only [problem?, piece]
      exact if_pos ⟨trivial, outside⟩

theorem span_of_diagnostic? {p : Placed} {d : Diagnostic} (found : p.diagnostic? = some d) :
    d.span = p.span := by
  obtain ⟨problem, -, rfl⟩ := Option.map_eq_some_iff.mp found
  rfl

theorem decimal?_eq_none_iff {digits : List Char} :
    decimal? digits = none ↔ Int64.maxValue.toInt < (Nat.ofDigitChars 10 digits 0 : Nat) := by
  unfold decimal? narrow?
  rw [Int64.toInt_minValue]
  split
  next within =>
    simp only [reduceCtorEq, false_iff]
    omega
  next outside =>
    simp only [true_iff]
    omega

end Placed

def Diagnostic.stray? (d : Diagnostic) : Option Span :=
  match d.problem with
  | .badCharacter _ => some d.span
  | _ => none

/-- The number that the text of a token denotes in decimal. -/
def Token.decimal (token : Token) : Nat :=
  Nat.ofDigitChars 10 token.text.toList 0

namespace Lexed

def strays (lexed : Lexed) : List Span :=
  lexed.diagnostics.filterMap Diagnostic.stray?

/-- A character of a text that is neither a blank nor in a token. -/
structure Bad (lexed : Lexed) (text : String) (span : Span) (c : Char) : Prop where
  slices : span.Slices text (String.singleton c)
  noBlank : Piece.isBlank c = false
  outside : ∀ token ∈ lexed.tokens,
    span.stop ≤ token.span.start ∨ token.span.stop ≤ span.start

structure Faithful (lexed : Lexed) (text : String) : Prop where
  tiled : ∃ spans : List Span, spans.Perm (lexed.tokens.map Token.span ++ lexed.strays) ∧
    spans.Pairwise (fun s t => s.stop ≤ t.start) ∧ Span.Tiles 0 text.toList spans
  ordered : lexed.tokens.Pairwise fun s t => s.span.stop ≤ t.span.start
  spelled : ∀ token ∈ lexed.tokens, ∃ before after,
    token.span.Splits text before token.text after ∧ 0 < token.span.length ∧
      token.kind.LongestMatch token.text.toList after.toList
  ended : lexed.all = lexed.tokens ++ [⟨.endOfInput, ⟨text.utf8ByteSize, 0⟩, "", none⟩] ∧
    ∀ token ∈ lexed.tokens, token.kind ≠ .endOfInput
  increasing : lexed.diagnostics.Pairwise fun d e => d.span.start < e.span.start
  reported : ∀ d : Diagnostic, d ∈ lexed.diagnostics ↔
    (∃ span c, lexed.Bad text span c ∧ d = .error span (.badCharacter (String.singleton c))) ∨
    ∃ token ∈ lexed.tokens, token.kind = .number ∧ Int64.maxValue.toInt < token.decimal ∧
      d = .error token.span (.numberOutOfRange token.text)
  unmatched : ∀ span c, lexed.Bad text span c → ∃ before after,
    span.Splits text before (String.singleton c) after ∧
      Token.Kind.Unmatched (c :: after.toList)
  valued : ∀ token ∈ lexed.tokens, token.kind = .number →
    (Int64.maxValue.toInt < token.decimal → token.value = some (.integer 0)) ∧
    (token.decimal ≤ Int64.maxValue.toInt →
      ∃ n : Int64, token.value = some (.integer n) ∧ n.toInt = token.decimal)

variable {text : String}

theorem mem_tokens_iff {token : Token} :
    token ∈ (ofText text).tokens ↔ ∃ p ∈ Placed.ofText text, ∃ kind chars,
      p.piece = .lexeme kind chars ∧
        token = ⟨kind, p.span, String.ofList chars, Placed.literal kind chars⟩ := by
  simp only [ofText, List.mem_filterMap, Placed.token?_eq_some_iff]

theorem bad_iff {span : Span} {c : Char} :
    (ofText text).Bad text span c ↔
      ∃ p ∈ Placed.ofText text, p.piece = .stray c ∧ p.span = span := by
  constructor
  · rintro ⟨⟨before, after, whole, start, length⟩, noBlank, outside⟩
    have split : text.toList = before.toList ++ c :: after.toList := by
      simp [whole]
    obtain ⟨p, member, left, right, chars, place⟩ :=
      @Placed.exists_mem_run 0 _ _ (Piece.cuts_cut text.toList) _ _ _ split
    have size : p.span.length = Text.byteSize left + (c.utf8Size + Text.byteSize right) := by
      change Text.byteSize p.piece.chars = _
      rw [chars, Text.byteSize_append, Text.byteSize]
    have positive := c.utf8Size_pos
    rw [Text.byteSize_toList] at place
    rw [String.utf8ByteSize_singleton] at length
    have alone : ∀ d, p.piece.chars = [d] → left = [] ∧ d = c ∧ right = [] := by
      intro d single
      rw [single] at chars
      cases left with
      | nil =>
        obtain ⟨rfl, rfl⟩ := List.cons.inj chars
        exact ⟨rfl, rfl, rfl⟩
      | cons _ _ => simp at chars
    cases piece : p.piece with
    | blank d =>
      obtain ⟨_, _, -, -, leads⟩ := Placed.of_mem_ofText member
      obtain ⟨-, rfl, -⟩ := alone d (by rw [piece]; rfl)
      rw [piece] at leads
      exact absurd leads (by simp [Piece.Leads, noBlank])
    | lexeme kind chars =>
      have inside := outside _ (mem_tokens_iff.mpr ⟨p, member, kind, chars, piece, rfl⟩)
      simp only [Span.stop, Placed.span] at inside size
      omega
    | stray d =>
      obtain ⟨rfl, rfl, rfl⟩ := alone d (by rw [piece]; rfl)
      refine ⟨p, member, piece, ?_⟩
      have sameStart : p.span.start = span.start := by
        simp only [Text.byteSize, Placed.span] at place ⊢
        omega
      have sameLength : p.span.length = span.length := by
        simp only [Text.byteSize] at size
        omega
      exact congr (congrArg Span.mk sameStart) sameLength
  · rintro ⟨p, member, piece, rfl⟩
    obtain ⟨before, after, splits, -, leads⟩ := Placed.of_mem_ofText member
    rw [piece] at splits leads
    refine ⟨⟨before, after, splits⟩, leads.1, ?_⟩
    intro token among
    obtain ⟨q, other, kind, chars, lexeme, rfl⟩ := mem_tokens_iff.mp among
    rcases Placed.eq_or_apart member other with rfl | apart
    · rw [piece] at lexeme
      cases lexeme
    · exact apart

private theorem perm_marks (ps : List Placed) :
    (ps.filterMap Placed.mark?).Perm
      ((ps.filterMap Placed.token?).map Token.span ++
        (ps.filterMap Placed.diagnostic?).filterMap Diagnostic.stray?) := by
  induction ps with
  | nil => exact .nil
  | cons p ps ih =>
    obtain ⟨start, piece⟩ := p
    cases piece with
    | blank c => exact ih
    | lexeme kind chars =>
      have noStray : (Placed.diagnostic? ⟨start, .lexeme kind chars⟩).bind Diagnostic.stray? =
          none := by
        simp only [Placed.diagnostic?, Placed.problem?]
        split <;> rfl
      rw [List.filterMap_filterMap] at ih ⊢
      simp only [List.filterMap_cons, noStray]
      exact ih.cons _
    | stray c => exact (ih.cons _).trans List.perm_middle.symm

private theorem pairwise_marks (text : String) :
    ((Placed.ofText text).filterMap Placed.mark?).Pairwise fun s t => s.stop ≤ t.start := by
  refine (Placed.pairwise_run 0 (Piece.cut text.toList)).filterMap _ ?_
  intro p q before s found t later
  rwa [← Placed.eq_span_of_mark? found, ← Placed.eq_span_of_mark? later]

theorem pairwise_tokens (text : String) :
    (ofText text).tokens.Pairwise fun s t => s.span.stop ≤ t.span.start := by
  refine (Placed.pairwise_run 0 (Piece.cut text.toList)).filterMap _ ?_
  intro p q before s found t later
  obtain ⟨_, _, -, rfl⟩ := Placed.token?_eq_some_iff.mp found
  obtain ⟨_, _, -, rfl⟩ := Placed.token?_eq_some_iff.mp later
  exact before

private theorem pairwise_diagnostics (text : String) :
    (ofText text).diagnostics.Pairwise fun d e => d.span.start < e.span.start := by
  have ordered : (Placed.ofText text).Pairwise fun p q => p.span.start < q.span.start := by
    refine List.Pairwise.imp_of_mem ?_ (Placed.pairwise_run 0 (Piece.cut text.toList))
    intro p q member _ before
    have positive := Placed.length_span_pos member
    simp only [Span.stop] at before
    omega
  refine ordered.filterMap _ ?_
  intro p q before d found e later
  rwa [Placed.span_of_diagnostic? found, Placed.span_of_diagnostic? later]

theorem longestMatch_of_mem_tokens {token : Token} (member : token ∈ (ofText text).tokens) :
    ∃ before after, token.span.Splits text before token.text after ∧ 0 < token.span.length ∧
      token.kind.LongestMatch token.text.toList after.toList := by
  obtain ⟨p, among, kind, chars, piece, rfl⟩ := mem_tokens_iff.mp member
  obtain ⟨before, after, splits, -, leads⟩ := Placed.of_mem_ofText among
  rw [piece] at splits leads
  refine ⟨before, after, splits, Placed.length_span_pos among, ?_⟩
  rw [String.toList_ofList]
  exact leads

theorem stop_le_of_mem_tokens {token : Token} (member : token ∈ (ofText text).tokens) :
    token.span.stop ≤ text.utf8ByteSize := by
  obtain ⟨before, after, splits, -, -⟩ := longestMatch_of_mem_tokens member
  exact Span.Slices.stop_le ⟨before, after, splits⟩

theorem pairwise_all (text : String) :
    (ofText text).all.Pairwise fun s t => s.span.stop ≤ t.span.start := by
  refine List.pairwise_append.mpr ⟨pairwise_tokens text, List.pairwise_singleton _ _, ?_⟩
  intro s member t last
  obtain rfl := List.mem_singleton.mp last
  exact stop_le_of_mem_tokens member

theorem pairwise_start_all (text : String) :
    (ofText text).all.Pairwise fun s t => s.span.start < t.span.start := by
  obtain ⟨inside, last, across⟩ := List.pairwise_append.mp (pairwise_all text)
  have shorter : ∀ s ∈ (ofText text).tokens, ∀ t : Token, s.span.stop ≤ t.span.start →
      s.span.start < t.span.start := by
    intro s member t before
    obtain ⟨_, _, -, positive, -⟩ := longestMatch_of_mem_tokens member
    simp only [Span.stop] at before
    omega
  refine List.pairwise_append.mpr ⟨?_, List.pairwise_singleton _ _, ?_⟩
  · exact inside.imp_of_mem fun {s t} member _ before => shorter s member t before
  · exact fun s member t final => shorter s member t (across s member t final)

theorem mem_diagnostics_iff {d : Diagnostic} :
    d ∈ (ofText text).diagnostics ↔
      (∃ span c, (ofText text).Bad text span c ∧
        d = .error span (.badCharacter (String.singleton c))) ∨
      ∃ token ∈ (ofText text).tokens, token.kind = .number ∧
        Int64.maxValue.toInt < token.decimal ∧
          d = .error token.span (.numberOutOfRange token.text) := by
  have outOfRange (chars : List Char) : Placed.decimal? chars = none ↔
      Int64.maxValue.toInt < (Nat.ofDigitChars 10 (String.ofList chars).toList 0 : Nat) := by
    rw [String.toList_ofList]
    exact Placed.decimal?_eq_none_iff
  constructor
  · intro member
    obtain ⟨p, among, found⟩ := List.mem_filterMap.mp member
    rcases Placed.diagnostic?_eq_some_iff.mp found with ⟨c, piece, rfl⟩ | ⟨chars, piece, wrong, rfl⟩
    · exact .inl ⟨p.span, c, bad_iff.mpr ⟨p, among, piece, rfl⟩, rfl⟩
    · have token := mem_tokens_iff.mpr ⟨p, among, .number, chars, piece, rfl⟩
      exact .inr ⟨_, token, rfl, (outOfRange chars).mp wrong, rfl⟩
  · intro wrong
    refine List.mem_filterMap.mpr ?_
    rcases wrong with ⟨span, c, bad, rfl⟩ | ⟨token, member, number, wrong, rfl⟩
    · obtain ⟨p, among, piece, rfl⟩ := bad_iff.mp bad
      exact ⟨p, among, Placed.diagnostic?_eq_some_iff.mpr (.inl ⟨c, piece, rfl⟩)⟩
    · obtain ⟨p, among, kind, chars, piece, rfl⟩ := mem_tokens_iff.mp member
      obtain rfl : kind = .number := number
      have outside := (outOfRange chars).mpr wrong
      exact ⟨p, among, Placed.diagnostic?_eq_some_iff.mpr (.inr ⟨chars, piece, outside, rfl⟩)⟩

theorem value_of_mem_tokens {token : Token} (member : token ∈ (ofText text).tokens) :
    token.value = Placed.literal token.kind token.text.toList := by
  obtain ⟨p, -, kind, chars, -, rfl⟩ := mem_tokens_iff.mp member
  rw [String.toList_ofList]

theorem value_of_number {token : Token} (member : token ∈ (ofText text).tokens)
    (number : token.kind = .number) :
    (Int64.maxValue.toInt < token.decimal → token.value = some (.integer 0)) ∧
    (token.decimal ≤ Int64.maxValue.toInt →
      ∃ n : Int64, token.value = some (.integer n) ∧ n.toInt = token.decimal) := by
  rw [value_of_mem_tokens member, number, Placed.literal]
  constructor
  · intro outside
    rw [Placed.decimal?_eq_none_iff.mpr outside, Option.getD_none]
  · intro inside
    cases found : Placed.decimal? token.text.toList with
    | none =>
      have outside : Int64.maxValue.toInt < token.decimal := Placed.decimal?_eq_none_iff.mp found
      omega
    | some n => exact ⟨n, rfl, toInt_of_narrow? found⟩

/-- Lexing is faithful to every text. -/
theorem ofText_faithful (text : String) : (ofText text).Faithful text where
  tiled :=
    ⟨_, perm_marks _, pairwise_marks text, Placed.tiles_run (Piece.cuts_cut text.toList) 0⟩
  ordered := pairwise_tokens text
  spelled _ member := longestMatch_of_mem_tokens member
  ended := by
    refine ⟨rfl, fun token member => ?_⟩
    obtain ⟨_, _, -, -, longest⟩ := longestMatch_of_mem_tokens member
    exact longest.spelled.ne_endOfInput
  increasing := pairwise_diagnostics text
  reported _ := mem_diagnostics_iff
  unmatched := by
    intro span c bad
    obtain ⟨p, member, piece, rfl⟩ := bad_iff.mp bad
    obtain ⟨before, after, splits, -, leads⟩ := Placed.of_mem_ofText member
    rw [piece] at splits leads
    exact ⟨before, after, splits, leads.2⟩
  valued _ member number := value_of_number member number

end Lexed

end Reckon
