import Reckon.Proofs.Token.Tiling

/-!
Reading the tokens of a text one by one. A reader gives them in their order, with the one that ends
the text as the last, and then nothing any more. What it has reported so far is what lexing reports
before the end of the last token that it gave. So a reader is known by its text and by how many
tokens it gave; also if there are many readers, copies among them, and they are used in turn.
-/

set_option autoImplicit false
set_option relaxedAutoImplicit false

namespace Reckon

namespace Lexed

/-- Where the first `k` tokens of a text end. -/
def reach (lexed : Lexed) (k : Nat) : Nat :=
  (lexed.all.take k).getLast?.elim 0 (·.span.stop)

/-- What is reported of a text before an offset. -/
def reportedBefore (lexed : Lexed) (offset : Nat) : List Diagnostic :=
  lexed.diagnostics.filter (·.span.start < offset)

end Lexed

namespace Lexer

def calls : Nat → Lexer → List (Option Token) × Lexer
  | 0, l => ([], l)
  | k + 1, l =>
    let later := l.next.2.calls k
    (l.next.1 :: later.1, later.2)

/-- The tokens that a reader has not given. -/
def coming (l : Lexer) : List Token :=
  l.rest.1

private theorem scan_cases (ps : List Placed) :
    (∃ skipped p token rest, ps = skipped ++ p :: rest ∧
      skipped.filterMap Placed.token? = [] ∧ p.token? = some token ∧
      scan ps = ((skipped ++ [p]).filterMap Placed.diagnostic?, some (token, rest))) ∨
    (ps.filterMap Placed.token? = [] ∧ scan ps = (ps.filterMap Placed.diagnostic?, none)) := by
  induction ps with
  | nil => exact .inr ⟨rfl, rfl⟩
  | cons p ps ih =>
    have front (more : List Placed) : (p :: more).filterMap Placed.diagnostic? =
        p.diagnostic?.toList ++ more.filterMap Placed.diagnostic? := by
      cases found : p.diagnostic? <;> simp [found]
    cases found : p.token? with
    | some token =>
      refine .inl ⟨[], p, token, ps, rfl, rfl, found, ?_⟩
      rw [scan, found, List.nil_append, front, List.filterMap_nil, List.append_nil]
    | none =>
      rcases ih with ⟨skipped, q, token, rest, rfl, silent, here, scanned⟩ | ⟨silent, scanned⟩
      · refine .inl ⟨p :: skipped, q, token, rest, rfl, ?_, here, ?_⟩
        · rw [List.filterMap_cons_none found, silent]
        · rw [scan, found, scanned, List.cons_append, front]
      · refine .inr ⟨?_, ?_⟩
        · rw [List.filterMap_cons_none found, silent]
        · rw [scan, found, scanned, front]

/-- One call passes all pieces up to the first token and gives it; or there is no token ahead, and
the reader is left as if all the rest had been read. -/
theorem next_cases (l : Lexer) :
    (∃ skipped p token rest, l.ahead = skipped ++ p :: rest ∧
      skipped.filterMap Placed.token? = [] ∧ p.token? = some token ∧
      l.next = (some token,
        { l with
          ahead := rest
          reported := l.reported ++ (skipped ++ [p]).filterMap Placed.diagnostic? })) ∨
    (l.ahead.filterMap Placed.token? = [] ∧ l.next = (l.last?, l.rest.2)) := by
  unfold next
  rcases scan_cases l.ahead with ⟨skipped, p, token, rest, ahead, silent, here, scanned⟩ |
    ⟨silent, scanned⟩
  · rw [scanned]
    exact .inl ⟨skipped, p, token, rest, ahead, silent, here, rfl⟩
  · rw [scanned]
    exact .inr ⟨silent, rfl⟩

theorem next_coming (l : Lexer) :
    l.next.1 = l.coming.head? ∧ l.next.2.coming = l.coming.tail := by
  rcases l.next_cases with ⟨skipped, p, token, rest, ahead, silent, here, next⟩ | ⟨silent, next⟩
  · have coming : l.coming = token :: (rest.filterMap Placed.token? ++ l.last?.toList) := by
      simp [coming, Lexer.rest, ahead, silent, here]
    rw [next, coming]
    exact ⟨rfl, rfl⟩
  · have coming : l.coming = l.last?.toList := by
      simp [coming, Lexer.rest, silent]
    rw [next, coming]
    cases l.last? <;> exact ⟨rfl, rfl⟩

theorem calls_coming (k : Nat) (l : Lexer) :
    (l.calls k).1 = (l.coming.take k).map some ++ List.replicate (k - l.coming.length) none ∧
      (l.calls k).2.coming = l.coming.drop k := by
  induction k generalizing l with
  | zero => simp [calls]
  | succ k ih =>
    obtain ⟨given, left⟩ := l.next_coming
    obtain ⟨later, rest⟩ := ih l.next.2
    rw [calls, later, rest, given, left]
    cases l.coming with
    | nil => simp [List.replicate_succ]
    | cons token more => simp

theorem calls_succ (k : Nat) (l : Lexer) : (l.calls (k + 1)).2 = (l.calls k).2.next.2 := by
  induction k generalizing l with
  | zero => rfl
  | succ k ih => exact ih l.next.2

/-- A reader on its way through a text, at an offset. What it reported starts before the offset, and
all that is ahead starts from there on. Nothing is ahead once the end was given. -/
structure Stands (text : String) (offset : Nat) (l : Lexer) : Prop where
  ahead : l.ahead <:+ Placed.ofText text
  whole : (Lexed.ofText text).diagnostics =
    l.reported ++ l.ahead.filterMap Placed.diagnostic?
  behind : ∀ d ∈ l.reported, d.span.start < offset
  beyond : ∀ p ∈ l.ahead, offset ≤ p.span.start
  endOfInput : l.endOfInput = .atEnd text
  settled : l.finished = true → l.ahead = []

namespace Stands

variable {text : String} {offset : Nat} {l : Lexer}

theorem start (text : String) : Stands text 0 (ofText text) where
  ahead := List.suffix_refl _
  whole := rfl
  behind := by
    intro d member
    cases member
  beyond _ _ := Nat.zero_le _
  endOfInput := rfl
  settled := by
    intro finished
    cases finished

theorem reported_eq (stands : l.Stands text offset) :
    l.reported = (Lexed.ofText text).reportedBefore offset := by
  have early : l.reported.filter (·.span.start < offset) = l.reported := by
    rw [List.filter_eq_self]
    intro d member
    exact decide_eq_true (stands.behind d member)
  have late : (l.ahead.filterMap Placed.diagnostic?).filter (·.span.start < offset) = [] := by
    rw [List.filter_eq_nil_iff]
    intro d member
    obtain ⟨p, among, found⟩ := List.mem_filterMap.mp member
    have later := stands.beyond p among
    rw [Placed.span_of_diagnostic? found, decide_eq_true_eq]
    omega
  rw [Lexed.reportedBefore, stands.whole, List.filter_append, early, late, List.append_nil]

theorem rest_eq (stands : l.Stands text offset) :
    l.rest.2 = ⟨[], .atEnd text, (Lexed.ofText text).diagnostics, true⟩ := by
  rw [stands.whole, ← stands.endOfInput]
  rfl

theorem rest_of_coming_eq_nil (stands : l.Stands text offset) (nothing : l.coming = []) :
    l.last? = none ∧ l.rest.2 = l := by
  have last : l.last? = none := by
    simpa using (List.append_eq_nil_iff.mp nothing).2
  have finished : l.finished = true := by
    simpa [last?] using last
  have ahead := stands.settled finished
  refine ⟨last, ?_⟩
  obtain ⟨_, _, _, _⟩ := l
  simp_all [Lexer.rest]

theorem next_of_coming_eq_nil (stands : l.Stands text offset) (nothing : l.coming = []) :
    l.next = (none, l) := by
  obtain ⟨last, same⟩ := stands.rest_of_coming_eq_nil nothing
  have given := l.next_coming.1
  rcases l.next_cases with ⟨skipped, p, token, rest, -, -, -, next⟩ | ⟨-, next⟩
  · rw [next, nothing] at given
    cases given
  · rw [next, last, same]

theorem next_of_token (stands : l.Stands text offset) {skipped rest : List Placed} {p : Placed}
    (ahead : l.ahead = skipped ++ p :: rest) :
    Stands text p.span.stop
      { l with
        ahead := rest
        reported := l.reported ++ (skipped ++ [p]).filterMap Placed.diagnostic? } := by
  have suffix := stands.ahead
  have ordered : l.ahead.Pairwise fun p q => p.span.stop ≤ q.span.start :=
    List.Pairwise.sublist suffix.sublist (Placed.pairwise_run 0 (Piece.cut text.toList))
  have split : l.ahead = (skipped ++ [p]) ++ rest := by
    simp [ahead]
  rw [split] at ordered suffix
  obtain ⟨inside, -, across⟩ := List.pairwise_append.mp ordered
  have longer : p.span.start < p.span.stop :=
    Nat.lt_add_of_pos_right (Placed.length_span_pos (suffix.subset (by simp)))
  have here : offset ≤ p.span.start := stands.beyond p (by simp [ahead])
  refine ⟨(List.suffix_append _ _).trans suffix, ?_, ?_, ?_, stands.endOfInput, ?_⟩
  · rw [stands.whole, split, List.filterMap_append, List.append_assoc]
  · intro d member
    rcases List.mem_append.mp member with before | new
    · have := stands.behind d before
      omega
    · obtain ⟨q, among, found⟩ := List.mem_filterMap.mp new
      rw [Placed.span_of_diagnostic? found]
      rcases List.mem_append.mp among with earlier | same
      · have apart := (List.pairwise_append.mp inside).2.2 q earlier p (List.mem_singleton_self p)
        simp only [Span.stop] at apart longer ⊢
        omega
      · obtain rfl := List.mem_singleton.mp same
        exact longer
  · exact fun q member => across p (by simp) q member
  · intro finished
    simp [stands.settled finished] at ahead

theorem rest (stands : l.Stands text offset) : Stands text text.utf8ByteSize l.rest.2 := by
  rw [stands.rest_eq]
  refine ⟨List.nil_suffix, (List.append_nil _).symm, ?_, by simp, rfl, fun _ => rfl⟩
  intro d member
  obtain ⟨p, among, found⟩ := List.mem_filterMap.mp member
  obtain ⟨before, after, splits, -⟩ := Placed.of_mem_ofText among
  have positive := Placed.length_span_pos among
  have inside := Span.Slices.stop_le ⟨before, after, splits⟩
  rw [Placed.span_of_diagnostic? found]
  simp only [Span.stop] at inside
  omega

theorem next (stands : l.Stands text offset) :
    l.next.2.Stands text (l.next.1.elim offset (·.span.stop)) := by
  rcases l.next_cases with ⟨skipped, p, token, rest, ahead, -, here, next⟩ | ⟨silent, next⟩
  · obtain ⟨_, _, -, rfl⟩ := Placed.token?_eq_some_iff.mp here
    rw [next]
    exact stands.next_of_token ahead
  · by_cases finished : l.finished = true
    · have nothing : l.coming = [] := by
        simp [coming, Lexer.rest, last?, silent, finished]
      rw [stands.next_of_coming_eq_nil nothing]
      exact stands
    · have last : l.last? = some (.atEnd text) := by
        simp [last?, finished, stands.endOfInput]
      rw [next, last]
      exact stands.rest

theorem calls (stands : l.Stands text offset) (k : Nat) :
    (l.calls k).2.Stands text ((l.coming.take k).getLast?.elim offset (·.span.stop)) := by
  induction k generalizing l offset with
  | zero => exact stands
  | succ k ih =>
    obtain ⟨given, left⟩ := l.next_coming
    have later := ih stands.next
    rw [given, left] at later
    show (l.next.2.calls k).2.Stands text _
    cases coming : l.coming with
    | nil => simpa [coming] using later
    | cons token more =>
      rw [coming, List.head?_cons, List.tail_cons] at later
      rw [List.take_succ_cons, List.getLast?_cons]
      cases last : (more.take k).getLast? <;> simpa [last] using later

end Stands

/-- A reader that was asked for a token `k` times. -/
def after (text : String) (k : Nat) : Lexer :=
  ((ofText text).calls k).2

section

variable (text : String) (k : Nat)

theorem stands_after : (after text k).Stands text ((Lexed.ofText text).reach k) :=
  (Stands.start text).calls k

theorem coming_after : (after text k).coming = (Lexed.ofText text).all.drop k :=
  (calls_coming k (ofText text)).2

variable {text k} (done : (Lexed.ofText text).all.length ≤ k)

include done

theorem next_after_of_le : (after text k).next = (none, after text k) := by
  refine (stands_after text k).next_of_coming_eq_nil ?_
  rw [coming_after, List.drop_of_length_le done]

theorem after_of_le :
    after text k = ⟨[], .atEnd text, (Lexed.ofText text).diagnostics, true⟩ := by
  have stands := stands_after text k
  have nothing : (after text k).coming = [] := by
    rw [coming_after, List.drop_of_length_le done]
  rw [← stands.rest_eq, (stands.rest_of_coming_eq_nil nothing).2]

end

end Lexer

structure Reader (α : Type) where
  next : α → Option Token × α
  rest : α → List Token × α
  reported : α → List Diagnostic

namespace Reader

inductive Use
  | next | rest | copy

structure Step where
  number : Nat
  use : Use

inductive Answer
  | token (token : Option Token) (reported : List Diagnostic)
  | tokens (tokens : List Token) (reported : List Diagnostic)
  | copied (number : Nat) (reported : List Diagnostic)

section

variable {α β : Type}

/-- Uses a reader of a row, if there is one of that number. A copy is put behind all others. -/
def step (r : Reader α) (row : List α) (s : Step) : Option Answer × List α :=
  match row[s.number]? with
  | none => (none, row)
  | some a =>
    match s.use with
    | .next =>
      let found := r.next a
      (some (.token found.1 (r.reported found.2)), row.set s.number found.2)
    | .rest =>
      let found := r.rest a
      (some (.tokens found.1 (r.reported found.2)), row.set s.number found.2)
    | .copy => (some (.copied row.length (r.reported a)), row ++ [a])

def run (r : Reader α) : List α → List Step → List (Option Answer) × List α
  | row, [] => ([], row)
  | row, s :: steps =>
    let first := r.step row s
    let later := r.run first.2 steps
    (first.1 :: later.1, later.2)

/-- One sort of readers stands for another: it gives the same in every use. -/
structure Represents (r : Reader α) (q : Reader β) (f : α → β) : Prop where
  next : ∀ a, q.next (f a) = ((r.next a).1, f (r.next a).2)
  rest : ∀ a, q.rest (f a) = ((r.rest a).1, f (r.rest a).2)
  reported : ∀ a, q.reported (f a) = r.reported a

namespace Represents

variable {r : Reader α} {q : Reader β} {f : α → β} (represents : r.Represents q f)

include represents

theorem step (row : List α) (s : Step) :
    q.step (row.map f) s = ((r.step row s).1, (r.step row s).2.map f) := by
  unfold Reader.step
  rw [List.getElem?_map]
  cases row[s.number]? with
  | none => rfl
  | some a =>
    simp only [Option.map_some]
    cases s.use with
    | next => simp only [represents.next, represents.reported, List.map_set]
    | rest => simp only [represents.rest, represents.reported, List.map_set]
    | copy => simp [represents.reported]

theorem run (row : List α) (steps : List Step) :
    q.run (row.map f) steps = ((r.run row steps).1, (r.run row steps).2.map f) := by
  induction steps generalizing row with
  | nil => rfl
  | cons s steps ih => simp only [Reader.run, represents.step, ih]

end Represents

end

end Reader

namespace Lexer

def reader : Reader Lexer :=
  ⟨next, rest, reported⟩

structure Bookmark where
  text : String
  given : Nat
  within : given ≤ (Lexed.ofText text).all.length

namespace Bookmark

def start (text : String) : Bookmark :=
  ⟨text, 0, Nat.zero_le _⟩

/-- A reader that does nothing but count. -/
def reader : Reader Bookmark where
  next b :=
    ((Lexed.ofText b.text).all[b.given]?,
      ⟨b.text, min (b.given + 1) (Lexed.ofText b.text).all.length, Nat.min_le_right _ _⟩)
  rest b :=
    ((Lexed.ofText b.text).all.drop b.given,
      ⟨b.text, (Lexed.ofText b.text).all.length, Nat.le_refl _⟩)
  reported b := (Lexed.ofText b.text).reportedBefore ((Lexed.ofText b.text).reach b.given)

def lexer (b : Bookmark) : Lexer :=
  after b.text b.given

theorem next_lexer (b : Bookmark) :
    b.lexer.next = ((reader.next b).1, (reader.next b).2.lexer) := by
  obtain ⟨text, given, within⟩ := b
  show (after text given).next = ((Lexed.ofText text).all[given]?,
    after text (min (given + 1) (Lexed.ofText text).all.length))
  by_cases inside : given < (Lexed.ofText text).all.length
  · have first := (after text given).next_coming.1
    rw [coming_after, List.head?_drop] at first
    rw [Nat.min_eq_left inside, ← first, after, after, calls_succ]
  · have done : (Lexed.ofText text).all.length = given := by omega
    have nothing : (Lexed.ofText text).all[given]? = none := by
      simp [done]
    rw [next_after_of_le (Nat.le_of_eq done), nothing, Nat.min_eq_right (by omega), done]

theorem rest_lexer (b : Bookmark) :
    b.lexer.rest = ((reader.rest b).1, (reader.rest b).2.lexer) := by
  have left : b.lexer.rest.1 = (Lexed.ofText b.text).all.drop b.given :=
    coming_after b.text b.given
  have ended : b.lexer.rest.2 = after b.text (Lexed.ofText b.text).all.length := by
    rw [after_of_le (Nat.le_refl _)]
    exact (stands_after b.text b.given).rest_eq
  exact Prod.ext left ended

theorem represents_lexer : reader.Represents Lexer.reader lexer where
  next := next_lexer
  rest := rest_lexer
  reported b := (stands_after b.text b.given).reported_eq

end Bookmark

/-- What is known of a reader that was asked for a token `k` times. It gave the first `k` tokens of
its text, and nothing where the text has no more of them. It reported what stands before the end of
the last token that it gave, and the rest of the tokens is still to come. Once it gave the end, all
is reported, and a further call gives nothing and changes nothing. -/
structure Lazy (text : String) (k : Nat) : Prop where
  given : ((ofText text).calls k).1 = ((Lexed.ofText text).all.take k).map some ++
    List.replicate (k - (Lexed.ofText text).all.length) none
  reported : (after text k).reported =
    (Lexed.ofText text).reportedBefore ((Lexed.ofText text).reach k)
  isPrefix : (after text k).reported <+: (Lexed.ofText text).diagnostics
  coming : (after text k).rest.1 = (Lexed.ofText text).all.drop k
  fused : (Lexed.ofText text).all.length ≤ k →
    (after text k).reported = (Lexed.ofText text).diagnostics ∧
      (after text k).next = (none, after text k)

theorem lazy_calls (text : String) (k : Nat) : Lazy text k where
  given := (calls_coming k (ofText text)).1
  reported := (stands_after text k).reported_eq
  isPrefix := by
    rw [(stands_after text k).whole]
    exact List.prefix_append _ _
  coming := coming_after text k
  fused := by
    intro done
    refine ⟨?_, next_after_of_le done⟩
    rw [after_of_le done]

/-- A reader gives the tokens of its text one by one and reports no more than it has to, and it
stops for good behind the token that ends the text. Many readers that are used in turn, and copied,
give what bookmarks give, so that a text and a number of tokens is all that the answers of a reader
depend on; and in the end each of them is the reader that gave as many tokens of its text. -/
theorem lazy_and_independent :
    (∀ (text : String) (k : Nat), Lazy text k) ∧
    ∀ (texts : List String) (steps : List Reader.Step),
      reader.run (texts.map ofText) steps =
        ((Bookmark.reader.run (texts.map .start) steps).1,
          (Bookmark.reader.run (texts.map .start) steps).2.map Bookmark.lexer) := by
  refine ⟨lazy_calls, fun texts steps => ?_⟩
  have fresh : texts.map ofText = (texts.map Bookmark.start).map Bookmark.lexer := by
    rw [List.map_map]
    rfl
  rw [fresh, Bookmark.represents_lexer.run]

end Lexer

end Reckon
