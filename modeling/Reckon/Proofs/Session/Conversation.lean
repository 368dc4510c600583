import Reckon.Invocation
import Reckon.Proofs.Text.Line

/-!
A session is nothing but its lines, answered one after another. A line that is no command has the
answer that it has in a run of its own, and all that a line can change for those after it is whether
trees are drawn.
-/

set_option autoImplicit false
set_option relaxedAutoImplicit false

namespace Reckon

def Transcript.reply (t : Transcript) : Reply :=
  ⟨t.out, t.err⟩

namespace Session

/-- A line that has trees drawn from then on, or not any more. -/
def Toggles (line : String) : Prop :=
  Text.Trims line.toList "#showtree".toList

instance : DecidablePred Toggles :=
  fun line => inferInstanceAs (Decidable (Text.Trims line.toList "#showtree".toList))

/-- Whether trees are drawn, after some lines. -/
def shown (showTree : Bool) (earlier : List String) : Bool :=
  Nat.repeat not (earlier.countP (Toggles ·)) showTree

/-- The reply to a line. It is fixed for a command, and for any other line it is what a run for
this line alone writes. -/
inductive Answers (verbosity : Verbosity) (showTree : Bool) (line : String) : Reply → Prop
  | blank (trims : Text.Trims line.toList "".toList) :
      Answers verbosity showTree line ⟨"You have to enter a valid term\n\n", ""⟩
  | toggle (toggles : Toggles line) :
      Answers verbosity showTree line
        ⟨if showTree then "Hiding parse trees\n" else "Showing parse trees\n", ""⟩
  | clear {word : String} (clears : word ∈ ["#cls", "#clear"])
      (trims : Text.Trims line.toList word.toList) :
      Answers verbosity showTree line ⟨"\x1b[2J\x1b[1;1H", ""⟩
  | term (other : ∀ word ∈ ["", "#showtree", "#cls", "#clear"],
        ¬ Text.Trims line.toList word.toList) :
      Answers verbosity showTree line
        ((Request.run ⟨showTree, some line⟩).transcript verbosity []).reply

/-- Lines and the replies to them, each under the setting that the lines before it leave. -/
structure Dialogue (verbosity : Verbosity) (showTree : Bool) (texts : List String)
    (replies : List Reply) : Prop where
  length : replies.length = texts.length
  answers : ∀ (i : Nat) (text : String) (reply : Reply), texts[i]? = some text →
    replies[i]? = some reply → Answers verbosity (shown showTree (texts.take i)) text reply

end Session

/-- A whole session: a prompt before each reply and before the end. -/
def Transcript.ofReplies (replies : List Reply) (exit : UInt32) (err : String) : Transcript where
  exit := exit
  out := String.join (replies.map ("Enter a mathematical term\n" ++ ·.out)) ++
    "Enter a mathematical term\n"
  err := String.join (replies.map Reply.err) ++ err

/-- A session with lines: each of them is answered, up to the first that is no text. The outcomes
of the answers have no part in how the session ends. -/
inductive Session.Converses (verbosity : Verbosity) (showTree : Bool) :
    List (List UInt8) → Transcript → Prop
  | ended {texts : List String} {replies : List Reply}
      (dialogue : Dialogue verbosity showTree texts replies) :
      Converses verbosity showTree (texts.map Text.encode) (.ofReplies replies 0 "")
  | broken {texts : List String} {replies : List Reply} {bad : List UInt8}
      (rest : List (List UInt8)) (dialogue : Dialogue verbosity showTree texts replies)
      (unread : ∀ text, Text.encode text ≠ bad) :
      Converses verbosity showTree (texts.map Text.encode ++ bad :: rest)
        (.ofReplies replies 1 "Failed to read input: stream did not contain valid UTF-8\n")

theorem Session.prompt_eq : prompt = "Enter a mathematical term\n" := by
  decide

theorem Transcript.ofReplies_cons (reply : Reply) (replies : List Reply) (exit : UInt32)
    (err : String) :
    ofReplies (reply :: replies) exit err =
      ⟨exit, Session.prompt ++ reply.out ++ (ofReplies replies exit err).out,
        reply.err ++ (ofReplies replies exit err).err⟩ := by
  simp [ofReplies, Session.prompt_eq, String.append_assoc]

theorem Ending.transcript_eq (e : Ending) : e.transcript = .ofReplies [] e.exit e.err := by
  simp [transcript, Transcript.ofReplies, Session.prompt_eq]

theorem Command.ofLine_cases (line : String) :
    (Text.Trims line.toList "".toList ∧ ofLine line = .blank) ∨
    (Session.Toggles line ∧ ofLine line = .toggleTree) ∨
    (∃ word ∈ ["#cls", "#clear"], Text.Trims line.toList word.toList ∧ ofLine line = .clear) ∨
    (∀ word ∈ ["", "#showtree", "#cls", "#clear"], ¬ Text.Trims line.toList word.toList) ∧
      ofLine line = .term line := by
  simp only [Session.Toggles, Text.trims_toList_iff, ofLine]
  split
  next blank => exact .inl ⟨blank, rfl⟩
  next filled =>
    split
    next toggles => exact .inr (.inl ⟨toggles, rfl⟩)
    next stays =>
      split
      next clears => exact .inr (.inr (.inl ⟨_, by simpa using clears, rfl, rfl⟩))
      next keeps =>
        obtain ⟨noCls, noClear⟩ := not_or.mp keeps
        exact .inr (.inr (.inr ⟨by simp [filled, stays, noCls, noClear], rfl⟩))

namespace Session

theorem shown_singleton (showTree : Bool) (line : String) :
    shown showTree [line] = if Toggles line then !showTree else showTree := by
  by_cases toggles : Toggles line <;> simp [shown, toggles, Nat.repeat]

theorem repeat_not_not (n : Nat) (b : Bool) : Nat.repeat not n (!b) = !Nat.repeat not n b := by
  induction n with
  | zero => rfl
  | succ n ih => exact congrArg not ih

theorem shown_cons (showTree : Bool) (line : String) (lines : List String) :
    shown showTree (line :: lines) = shown (shown showTree [line]) lines := by
  rw [shown_singleton]
  by_cases toggles : Toggles line
  · rw [if_pos toggles, shown, shown, List.countP_cons_of_pos (by simpa using toggles),
      repeat_not_not]
    rfl
  · rw [if_neg toggles, shown, shown, List.countP_cons_of_neg (by simpa using toggles)]

/-- What one line does: it is answered, and at most it turns the drawing of trees on or off. -/
theorem respond_answers (s : Session) (line : String) :
    Answers s.verbosity s.showTree line (s.respond line).2 ∧
      (s.respond line).1 = { s with showTree := shown s.showTree [line] } := by
  have same : ¬ Toggles line → s = { s with showTree := shown s.showTree [line] } := by
    intro other
    rw [shown_singleton, if_neg other]
  unfold respond
  rcases Command.ofLine_cases line with ⟨trims, command⟩ | ⟨toggles, command⟩ |
    ⟨word, clears, trims, command⟩ | ⟨other, command⟩
  · rw [command]
    refine ⟨.blank trims, same fun toggles => ?_⟩
    exact absurd (Text.trims_unique trims toggles) (by decide)
  · rw [command, shown_singleton, if_pos toggles]
    refine ⟨?_, rfl⟩
    obtain ⟨showTree, verbosity⟩ := s
    cases showTree with
    | true => exact .toggle toggles
    | false => exact .toggle toggles
  · rw [command]
    refine ⟨.clear clears trims, same fun toggles => ?_⟩
    have unique : word = "#showtree" := String.toList_inj.mp (Text.trims_unique trims toggles)
    subst unique
    exact absurd clears (by decide)
  · rw [command]
    exact ⟨.term other, same (other "#showtree" (by decide))⟩

theorem Dialogue.nil (verbosity : Verbosity) (showTree : Bool) :
    Dialogue verbosity showTree [] [] :=
  ⟨rfl, by simp⟩

theorem Dialogue.cons {verbosity : Verbosity} {showTree : Bool} {text : String} {reply : Reply}
    {texts : List String} {replies : List Reply} (answer : Answers verbosity showTree text reply)
    (more : Dialogue verbosity (shown showTree [text]) texts replies) :
    Dialogue verbosity showTree (text :: texts) (reply :: replies) := by
  refine ⟨by simp [more.length], ?_⟩
  intro i line said here there
  cases i with
  | zero =>
    cases here
    cases there
    exact answer
  | succ i =>
    rw [List.take_succ_cons, shown_cons]
    exact more.answers i line said here there

theorem Converses.cons {verbosity : Verbosity} {showTree : Bool} {text : String} {reply : Reply}
    {bodies : List (List UInt8)} {t : Transcript} (answer : Answers verbosity showTree text reply)
    (more : Converses verbosity (shown showTree [text]) bodies t) :
    Converses verbosity showTree (Text.encode text :: bodies)
      ⟨t.exit, prompt ++ reply.out ++ t.out, reply.err ++ t.err⟩ := by
  cases more with
  | ended dialogue =>
    have whole := Converses.ended (dialogue.cons answer)
    rwa [Transcript.ofReplies_cons] at whole
  | broken rest dialogue unread =>
    have whole := Converses.broken rest (dialogue.cons answer) unread
    rwa [Transcript.ofReplies_cons] at whole

theorem converses_converse (s : Session) (lines : List (List UInt8)) :
    Converses s.verbosity s.showTree (lines.map Text.body) (s.converse lines) := by
  induction lines generalizing s with
  | nil =>
    rw [converse, Ending.transcript_eq]
    exact .ended (.nil _ _)
  | cons line lines ih =>
    rw [List.map_cons]
    cases read : Text.decode? line with
    | none =>
      rw [converse, turn, read]
      simp only [Ending.transcript_eq]
      exact .broken _ (.nil _ _) (Text.encode_ne_of_decode?_eq_none read)
    | some text =>
      obtain ⟨answer, next⟩ := s.respond_answers text
      have more := ih { s with showTree := shown s.showTree [text] }
      rw [converse, turn, read, ← Text.decode?_eq_some_iff.mp read]
      simp only [next]
      exact more.cons answer

theorem once_showTree (verbosity : Verbosity) (text : String) :
    once ⟨true, verbosity⟩ text =
      { once ⟨false, verbosity⟩ text with
        out := unlines (Tree.ofText text).root.draw ++ (once ⟨false, verbosity⟩ text).out } := by
  simp only [once, answer, drawing, if_true, Bool.false_eq_true, if_false, String.empty_append]
  rfl

end Session

/-- A session is a dialogue with the lines of its input, which are cut in one way. It goes on to the
end of the input and then succeeds, whatever the outcomes of its terms, unless there is a line that
is no text: it then fails at the first such line. A run for one term only has the drawing of the
tree before its output if trees are asked for, and is the same otherwise. -/
theorem Request.transcript_converses (verbosity : Verbosity) (showTree : Bool)
    (input : List UInt8) :
    (∃ bodies, (∀ cut, Text.Cuts input cut ↔ cut = bodies) ∧
      Session.Converses verbosity showTree bodies
        ((run ⟨showTree, none⟩).transcript verbosity input)) ∧
    ∀ text, (run ⟨true, some text⟩).transcript verbosity input =
      { (run ⟨false, some text⟩).transcript verbosity input with
        out := unlines (Tree.ofText text).root.draw ++
          ((run ⟨false, some text⟩).transcript verbosity input).out } := by
  have converses := Session.converses_converse ⟨showTree, verbosity⟩ (Text.lines input)
  exact ⟨⟨_, fun _ => Text.cuts_iff, converses⟩, Session.once_showTree verbosity⟩

end Reckon
