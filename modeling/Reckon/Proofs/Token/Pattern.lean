import Reckon.Proofs.Token.Layout

/-!
The patterns of the kinds of tokens, told apart from any reading of a text, and what stands at the
front of a text by them: a blank, or the longest text that a pattern matches, or a character at
which none matches. The pieces that a text is cut into are of just these three sorts.
-/

set_option autoImplicit false
set_option relaxedAutoImplicit false

namespace Reckon

namespace Token.Kind

inductive Matches : Token.Kind → List Char → Prop
  | number {digits : List Char} (nonempty : digits ≠ [])
      (digit : ∀ c ∈ digits, c.isDigit = true) : Matches .number digits
  | identifier {c : Char} {cs : List Char} (starts : Piece.startsWord c = true)
      (more : ∀ d ∈ cs, Piece.continuesWord d = true) : Matches .identifier (c :: cs)
  | fixed {kind : Token.Kind} (spelled : kind.spelling ≠ []) : Matches kind kind.spelling

/-- A kind matches a text and no kind matches more of what follows. Of two kinds that match the
same text, an identifier is never chosen. -/
structure LongestMatch (kind : Token.Kind) (text rest : List Char) : Prop where
  spelled : kind.Matches text
  longest : ∀ (other : Token.Kind) (more : List Char), more ≠ [] → more <+: rest →
    ¬ other.Matches (text ++ more)
  chosen : ∀ other : Token.Kind, other.Matches text → other = kind ∨ other = .identifier

/-- No kind matches anything at the front of a text. -/
def Unmatched (text : List Char) : Prop :=
  ∀ (kind : Token.Kind) (front : List Char), front <+: text → ¬ kind.Matches front

theorem Matches.ne_nil {kind : Token.Kind} {text : List Char} (spelled : kind.Matches text) :
    text ≠ [] := by
  cases spelled with
  | number nonempty _ => exact nonempty
  | identifier _ _ => exact List.cons_ne_nil _ _
  | fixed spelled => exact spelled

theorem Matches.eq_spelling {kind : Token.Kind} {text : List Char} (spelled : kind.Matches text)
    (fixed : kind.spelling ≠ []) : text = kind.spelling := by
  cases spelled with
  | number _ _ => exact absurd rfl fixed
  | identifier _ _ => exact absurd rfl fixed
  | fixed _ => rfl

theorem Matches.ne_endOfInput {kind : Token.Kind} {text : List Char}
    (spelled : kind.Matches text) : kind ≠ .endOfInput := by
  rintro rfl
  cases spelled with
  | fixed spelled => exact spelled rfl

private theorem spelling_of_single? {c : Char} {kind : Token.Kind}
    (found : Piece.single? c = some kind) : kind.spelling = [c] := by
  unfold Piece.single? at found
  split at found <;> cases found <;> rfl

private theorem spelling_of_double? {c d : Char} {kind : Token.Kind}
    (found : Piece.double? c d = some kind) : kind.spelling = [c, d] := by
  unfold Piece.double? at found
  split at found <;> cases found <;> rfl

private theorem spelling_cases {kind : Token.Kind} {c : Char} {cs : List Char}
    (spelled : kind.spelling = c :: cs) :
    (Piece.startsWord c = true ∧ (∀ d ∈ cs, Piece.continuesWord d = true) ∧
      Piece.word (c :: cs) = .lexeme kind (c :: cs)) ∨
    (cs = [] ∧ Piece.single? c = some kind) ∨
    ∃ d, cs = [d] ∧ Piece.double? c d = some kind := by
  cases kind <;> cases spelled <;> simp [Piece.single?, Piece.double?] <;> decide

private theorem Matches.cases_cons {kind : Token.Kind} {c : Char} {cs : List Char}
    (spelled : kind.Matches (c :: cs)) :
    (c.isDigit = true ∧ (∀ d ∈ cs, d.isDigit = true) ∧ kind = .number) ∨
    (Piece.startsWord c = true ∧ (∀ d ∈ cs, Piece.continuesWord d = true) ∧
      (kind = .identifier ∨ Piece.word (c :: cs) = .lexeme kind (c :: cs))) ∨
    (cs = [] ∧ Piece.single? c = some kind) ∨
    ∃ d, cs = [d] ∧ Piece.double? c d = some kind := by
  generalize whole : c :: cs = text at spelled
  cases spelled with
  | number _ digit =>
    subst whole
    have tail : ∀ d ∈ cs, d.isDigit = true := by
      intro d member
      exact digit d (List.mem_cons_of_mem c member)
    exact .inl ⟨digit c List.mem_cons_self, tail, rfl⟩
  | identifier starts more =>
    cases whole
    exact .inr (.inl ⟨starts, more, .inl rfl⟩)
  | fixed _ =>
    rcases spelling_cases whole.symm with ⟨starts, more, word⟩ | operator
    · rw [whole] at word
      exact .inr (.inl ⟨starts, more, .inr word⟩)
    · exact .inr (.inr operator)

private theorem startsWord_of_isDigit {c : Char} (digit : c.isDigit = true) :
    Piece.startsWord c = false := by
  have bounds : 48 ≤ c.toNat ∧ c.toNat ≤ 57 := Char.isDigit_iff_toNat.mp digit
  cases starts : Piece.startsWord c with
  | false => rfl
  | true =>
    have classes : (decide ('A'.val ≤ c.val ∧ c.val ≤ 'Z'.val) ||
        ('a'.val ≤ c.val && c.val ≤ 'z'.val) || c = '_') = true := starts
    simp only [Bool.or_eq_true, Bool.and_eq_true, decide_eq_true_eq,
      UInt32.le_iff_toNat_le] at classes
    change ((65 ≤ c.toNat ∧ c.toNat ≤ 90) ∨ (97 ≤ c.toNat ∧ c.toNat ≤ 122)) ∨ c = '_' at classes
    rcases classes with (letter | letter) | rfl
    · omega
    · omega
    · exact absurd digit (by decide)

private theorem class_of_single? {c : Char} {kind : Token.Kind}
    (found : Piece.single? c = some kind) :
    c.isDigit = false ∧ Piece.startsWord c = false := by
  unfold Piece.single? at found
  split at found <;> cases found <;> decide

private theorem class_of_double? {c d : Char} {kind : Token.Kind}
    (found : Piece.double? c d = some kind) :
    c.isDigit = false ∧ Piece.startsWord c = false := by
  unfold Piece.double? at found
  split at found <;> cases found <;> decide

section

variable {kind : Token.Kind} {c : Char} {cs : List Char}

theorem Matches.of_isDigit (spelled : kind.Matches (c :: cs)) (digit : c.isDigit = true) :
    (∀ d ∈ cs, d.isDigit = true) ∧ kind = .number := by
  rcases spelled.cases_cons with ⟨-, number⟩ | ⟨starts, -⟩ | ⟨-, single⟩ | ⟨d, -, double⟩
  · exact number
  · simp [startsWord_of_isDigit digit] at starts
  · simp [(class_of_single? single).1] at digit
  · simp [(class_of_double? double).1] at digit

theorem Matches.of_startsWord (spelled : kind.Matches (c :: cs))
    (starts : Piece.startsWord c = true) :
    (∀ d ∈ cs, Piece.continuesWord d = true) ∧
      (kind = .identifier ∨ Piece.word (c :: cs) = .lexeme kind (c :: cs)) := by
  rcases spelled.cases_cons with ⟨digit, -⟩ | ⟨-, word⟩ | ⟨-, single⟩ | ⟨d, -, double⟩
  · simp [startsWord_of_isDigit digit] at starts
  · exact word
  · simp [(class_of_single? single).2] at starts
  · simp [(class_of_double? double).2] at starts

theorem Matches.of_symbol (spelled : kind.Matches (c :: cs)) (noDigit : ¬ c.isDigit = true)
    (noWord : ¬ Piece.startsWord c = true) :
    (cs = [] ∧ Piece.single? c = some kind) ∨ ∃ d, cs = [d] ∧ Piece.double? c d = some kind := by
  rcases spelled.cases_cons with ⟨digit, -⟩ | ⟨starts, -⟩ | operator
  · exact absurd digit noDigit
  · exact absurd starts noWord
  · exact operator

end

end Token.Kind

namespace Piece

open Token.Kind (LongestMatch Unmatched)

/-- What a piece is, if so much follows it. -/
def Leads (rest : List Char) : Piece → Prop
  | .blank c => isBlank c = true
  | .lexeme kind text => kind.LongestMatch text rest
  | .stray c => isBlank c = false ∧ Unmatched (c :: rest)

private theorem exists_cons_of_prefix_dropWhile {p : Char → Bool} {cs more : List Char}
    (nonempty : more ≠ []) (front : more <+: cs.dropWhile p) :
    ∃ d ds, more = d :: ds ∧ p d = false := by
  obtain ⟨d, ds, rfl⟩ := List.exists_cons_of_ne_nil nonempty
  obtain ⟨rest, dropped⟩ := front
  have stops := List.head?_dropWhile_not p cs
  rw [← dropped] at stops
  exact ⟨d, ds, rfl, stops⟩

private theorem longestMatch_digits {c : Char} (digit : c.isDigit = true) (cs : List Char) :
    LongestMatch .number (c :: cs.takeWhile Char.isDigit) (cs.dropWhile Char.isDigit) where
  spelled := by
    refine .number (List.cons_ne_nil _ _) fun d member => ?_
    rcases List.mem_cons.mp member with rfl | member
    · exact digit
    · exact List.all_eq_true.mp List.all_takeWhile d member
  longest := by
    intro other more nonempty front spelled
    obtain ⟨d, ds, rfl, stops⟩ := exists_cons_of_prefix_dropWhile nonempty front
    have all := (spelled.of_isDigit digit).1 d (by simp)
    rw [stops] at all
    cases all
  chosen := by
    intro other spelled
    exact .inl (spelled.of_isDigit digit).2

private theorem longestMatch_word {c : Char} (starts : startsWord c = true) (cs : List Char)
    {kind : Token.Kind}
    (word : word (c :: cs.takeWhile continuesWord) =
      .lexeme kind (c :: cs.takeWhile continuesWord)) :
    kind.LongestMatch (c :: cs.takeWhile continuesWord) (cs.dropWhile continuesWord) where
  spelled := by
    unfold Piece.word at word
    split at word
    next text =>
      cases word
      rw [text]
      exact @Token.Kind.Matches.fixed .trueWord (by decide)
    next =>
      split at word
      next text =>
        cases word
        rw [text]
        exact @Token.Kind.Matches.fixed .falseWord (by decide)
      next =>
        cases word
        exact .identifier starts (List.all_eq_true.mp List.all_takeWhile)
  longest := by
    intro other more nonempty front spelled
    obtain ⟨d, ds, rfl, stops⟩ := exists_cons_of_prefix_dropWhile nonempty front
    have all := (spelled.of_startsWord starts).1 d (by simp)
    rw [stops] at all
    cases all
  chosen := by
    intro other spelled
    rcases (spelled.of_startsWord starts).2 with identifier | same
    · exact .inr identifier
    · rw [word] at same
      cases same
      exact .inl rfl

section

variable {c : Char} (noDigit : ¬ c.isDigit = true) (noWord : ¬ startsWord c = true)

include noDigit noWord

private theorem longestMatch_double {d : Char} {kind : Token.Kind}
    (found : double? c d = some kind) (rest : List Char) : kind.LongestMatch [c, d] rest where
  spelled := by
    have spelling := Token.Kind.spelling_of_double? found
    rw [← spelling]
    exact .fixed (by simp [spelling])
  longest := by
    intro other more nonempty _ spelled
    rcases spelled.of_symbol noDigit noWord with ⟨empty, -⟩ | ⟨e, short, -⟩
    · cases empty
    · exact nonempty (List.cons.inj short).2
  chosen := by
    intro other spelled
    rcases spelled.of_symbol noDigit noWord with ⟨empty, -⟩ | ⟨e, same, double⟩
    · cases empty
    · cases same
      exact .inl (Option.some.inj (double.symm.trans found))

private theorem longestMatch_single {kind : Token.Kind} (found : single? c = some kind)
    {rest : List Char} (noDouble : ∀ d, rest.head? = some d → double? c d = none) :
    kind.LongestMatch [c] rest where
  spelled := by
    have spelling := Token.Kind.spelling_of_single? found
    rw [← spelling]
    exact .fixed (by simp [spelling])
  longest := by
    rintro other more nonempty ⟨later, rfl⟩ spelled
    rcases spelled.of_symbol noDigit noWord with ⟨empty, -⟩ | ⟨d, rfl, double⟩
    · exact nonempty empty
    · rw [noDouble d rfl] at double
      cases double
  chosen := by
    intro other spelled
    rcases spelled.of_symbol noDigit noWord with ⟨-, single⟩ | ⟨d, more, -⟩
    · exact .inl (Option.some.inj (single.symm.trans found))
    · cases more

private theorem unmatched_of_none (noSingle : single? c = none) {rest : List Char}
    (noDouble : ∀ d, rest.head? = some d → double? c d = none) : Unmatched (c :: rest) := by
  intro kind front isPrefix spelled
  obtain ⟨e, es, rfl⟩ := List.exists_cons_of_ne_nil spelled.ne_nil
  obtain ⟨rfl, later, rfl⟩ := List.cons_prefix_cons.mp isPrefix
  rcases spelled.of_symbol noDigit noWord with ⟨-, single⟩ | ⟨d, rfl, double⟩
  · rw [noSingle] at single
    cases single
  · rw [noDouble d rfl] at double
    cases double

private theorem alone_leads (noBlank : isBlank c = false) {rest : List Char}
    (noDouble : ∀ d, rest.head? = some d → double? c d = none) : (alone c).Leads rest := by
  unfold alone
  split
  next kind found => exact longestMatch_single noDigit noWord found noDouble
  next noSingle => exact ⟨noBlank, unmatched_of_none noDigit noWord noSingle noDouble⟩

private theorem symbol_leads (noBlank : isBlank c = false) (cs : List Char) :
    ∃ rest, c :: cs = (symbol c cs).chars ++ rest ∧ (symbol c cs).Leads rest := by
  cases cs with
  | nil =>
    refine ⟨[], by simp [symbol, chars_alone], alone_leads noDigit noWord noBlank ?_⟩
    intro d head
    cases head
  | cons d ds =>
    cases found : double? c d with
    | some kind =>
      refine ⟨ds, by simp [symbol, found, chars], ?_⟩
      simp only [symbol, found]
      exact longestMatch_double noDigit noWord found ds
    | none =>
      refine ⟨d :: ds, by simp [symbol, found, chars_alone], ?_⟩
      simp only [symbol, found]
      refine alone_leads noDigit noWord noBlank fun e head => ?_
      cases head
      exact found

end

/-- The first piece of a text is a blank, the longest match of a pattern, or a character at which
no pattern matches. -/
theorem first_leads (c : Char) (cs : List Char) :
    ∃ rest, c :: cs = (first c cs).chars ++ rest ∧ (first c cs).Leads rest := by
  unfold first
  split
  next blank => exact ⟨cs, rfl, blank⟩
  next noBlank =>
    split
    next digit =>
      refine ⟨cs.dropWhile Char.isDigit, ?_, longestMatch_digits digit cs⟩
      simp [chars]
    next noDigit =>
      split
      next starts =>
        refine ⟨cs.dropWhile continuesWord, by simp [chars_word], ?_⟩
        obtain ⟨kind, word⟩ : ∃ kind, word (c :: cs.takeWhile continuesWord) =
            .lexeme kind (c :: cs.takeWhile continuesWord) := by
          unfold word
          split
          · exact ⟨_, rfl⟩
          · split <;> exact ⟨_, rfl⟩
        rw [word]
        exact longestMatch_word starts cs word
      next noWord => exact symbol_leads noDigit noWord (by simpa using noBlank) cs

inductive Cuts : List Char → List Piece → Prop
  | nil : Cuts [] []
  | cons {piece : Piece} {rest : List Char} {pieces : List Piece} (nonempty : piece.chars ≠ [])
      (leads : piece.Leads rest) (more : Cuts rest pieces) :
      Cuts (piece.chars ++ rest) (piece :: pieces)

theorem cuts_cut (text : List Char) : Cuts text (cut text) := by
  fun_induction cut text with
  | case1 => exact .nil
  | case2 c cs ih =>
    obtain ⟨rest, whole, leads⟩ := first_leads c cs
    have dropped : (c :: cs).drop (first c cs).chars.length = rest :=
      (congrArg (List.drop _) whole).trans List.drop_left
    have cons := Cuts.cons (chars_first_ne_nil c cs) leads (dropped ▸ ih)
    rwa [← whole, ← dropped] at cons

end Piece

end Reckon
