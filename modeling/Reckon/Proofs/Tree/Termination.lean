import Reckon.Proofs.Node.Machine
import Reckon.Proofs.Tree.Abandonment

/-!
How parsing goes on and ends. The position of the machine never leaves the tokens and never goes
back, and the depth is the number of the expressions that are open. Another expression is entered
only for a token, and some steps take none; so a token pays for all the steps that it can lead to,
and there are at most so many of them for each.
-/

set_option autoImplicit false
set_option relaxedAutoImplicit false

namespace Reckon

open StateTransition (Reaches EvalsToInTime)

namespace Lexed

theorem length_all (lexed : Lexed) : lexed.all.length = lexed.tokens.length + 1 :=
  List.length_append

theorem endsOnce_ofText (text : String) : (ofText text).EndsOnce where
  ended := rfl
  inside token member := by
    obtain ⟨_, _, -, -, longest⟩ := longestMatch_of_mem_tokens member
    exact longest.spelled.ne_endOfInput

theorem EndsOnce.kind_eq_iff {lexed : Lexed} (ends : lexed.EndsOnce) {i : Nat} {token : Token}
    (found : lexed.all[i]? = some token) :
    token.kind = .endOfInput ↔ i = lexed.tokens.length := by
  rcases Nat.lt_trichotomy i lexed.tokens.length with before | rfl | behind
  · rw [all, List.getElem?_append_left before] at found
    exact iff_of_false (ends.inside token (List.mem_of_getElem? found)) (Nat.ne_of_lt before)
  · have last : lexed.endOfInput = token := by
      simpa [all] using found
    exact iff_of_true (last ▸ ends.ended) rfl
  · have none : lexed.all[i]? = none := by
      rw [List.getElem?_eq_none_iff, length_all]
      omega
    rw [none] at found
    cases found

end Lexed

namespace Parser

theorem State.ahead_finish (s : State) : s.finish.ahead = [] := by
  unfold finish
  split
  next nothing => exact nothing
  next => rfl

namespace Memory

variable {lexed : Lexed} {m : Memory}

structure Follows (lexed : Lexed) (m later : Memory) : Prop where
  within : later.Within lexed
  forward : m.position ≤ later.position
  depth : later.depth = m.depth

theorem position_pass (m : Memory) {token : Token} (inside : token.kind ≠ .endOfInput) :
    (m.pass token).position = m.position + 1 := by
  rw [pass, if_neg inside]

namespace Within

theorem exists_current (within : m.Within lexed) :
    ∃ token, m.current? = some token ∧ m.tokens[m.position]? = some token := by
  have inside : m.position < m.tokens.length := by
    have := within.position
    rw [within.tokens, lexed.length_all]
    omega
  rw [within.current?_eq]
  exact ⟨_, List.getElem?_eq_getElem inside, List.getElem?_eq_getElem inside⟩

theorem keep (within : m.Within lexed) : m.Follows lexed m :=
  ⟨within, Nat.le_refl _, rfl⟩

theorem report (within : m.Within lexed) (span : Span) (problem : Problem) :
    m.Follows lexed (m.report span problem) :=
  ⟨⟨within.tokens, within.position⟩, Nat.le_refl _, rfl⟩

theorem skip (within : m.Within lexed) : m.Follows lexed m.skip where
  within := ⟨within.tokens, Nat.le_of_eq within.last_eq⟩
  forward := Nat.le_trans within.position (Nat.le_of_eq within.last_eq.symm)
  depth := rfl

theorem abandon (within : m.Within lexed) (span : Span) : m.Follows lexed (m.abandon span) := by
  have skipped := within.skip
  unfold Memory.abandon
  split
  · exact skipped
  · exact ⟨⟨skipped.within.tokens, skipped.within.position⟩, skipped.forward, rfl⟩

theorem pass (within : m.Within lexed) (ends : lexed.EndsOnce) {token : Token}
    (found : m.tokens[m.position]? = some token) : m.Follows lexed (m.pass token) := by
  by_cases last : token.kind = .endOfInput
  · rw [Memory.pass, if_pos last]
    exact within.keep
  · rw [Memory.pass, if_neg last]
    rw [within.tokens] at found
    have other := (not_congr (ends.kind_eq_iff found)).mp last
    have bound := within.position
    exact ⟨⟨within.tokens, Nat.lt_of_le_of_ne bound other⟩, Nat.le_succ _, rfl⟩

theorem close (within : m.Within lexed) (ends : lexed.EndsOnce) {token : Token}
    (found : m.tokens[m.position]? = some token) : m.Follows lexed (m.close token).2 := by
  unfold Memory.close
  split
  · exact within.pass ends found
  · simp only
    split
    · exact within.keep
    · exact within.report _ _

theorem finish (within : m.Within lexed) (token : Token) : m.Follows lexed (m.finish token) := by
  unfold Memory.finish
  split
  · exact within.keep
  · have reported := within.report token.span (.unexpectedToken token.kind .endOfInput)
    have skipped := reported.within.skip
    exact ⟨skipped.within, Nat.le_trans reported.forward skipped.forward, rfl⟩

end Within

end Memory

/-- How many expressions are open at a point of control, those that wait apart. -/
def Control.opened : Control → Nat
  | .operand _ | .fold _ _ _ | .leave _ _ => 1
  | _ => 0

/-- How many steps can follow a point of control with nothing on the stack and no token left. -/
def Control.weight : Control → Nat
  | .enter _ => 6
  | .operand _ => 5
  | .fold _ _ _ => 4
  | .leave _ _ => 3
  | .answer _ _ => 2
  | .finish _ => 1
  | .done _ _ => 0

theorem Control.weight_le (control : Control) : control.weight ≤ 6 := by
  cases control <;> simp [weight]

namespace Machine

/-- How many expressions are open: one for every frame, and the one that is read now. -/
def opened (m : Machine) : Nat :=
  m.stack.length + m.control.opened

/-- A bound for the steps that are to come. A token pays for another expression and for its frame,
and a frame for what is done when its answer is there. -/
def pending (m : Machine) : Nat :=
  6 * (m.memory.last - m.memory.position) + 3 * m.stack.length + m.control.weight

structure Sound (lexed : Lexed) (m : Machine) : Prop where
  within : m.memory.Within lexed
  depth : m.memory.depth = m.opened
  nesting : m.memory.depth ≤ maxNesting
  tier : ∀ tier, m.control = .enter tier → tier < 7

/-- The token at the position is taken, and waits in a frame for the expression that is entered. -/
def Consumes (m next : Machine) : Prop :=
  ∃ frame, next.stack = frame :: m.stack ∧
    m.memory.tokens[m.memory.position]? = some frame.token ∧
    next.memory.position = m.memory.position + 1

structure Advances (lexed : Lexed) (m next : Machine) : Prop where
  sound : next.Sound lexed
  forward : m.memory.position ≤ next.memory.position
  pending : next.pending < m.pending
  consumes : ∀ tier, next.control = .enter tier → m.Consumes next

private theorem Sound.advances {lexed : Lexed} {m next : Machine} (sound : m.Sound lexed)
    (follows : m.memory.Follows lexed next.memory) (opened : next.opened = m.opened)
    (lighter : 3 * next.stack.length + next.control.weight <
      6 * (next.memory.position - m.memory.position) + 3 * m.stack.length + m.control.weight)
    (enters : ∀ tier, next.control = .enter tier → tier < 7 ∧ m.Consumes next) :
    m.Advances lexed next where
  sound :=
    { within := follows.within
      depth := by rw [follows.depth, sound.depth, opened]
      nesting := follows.depth ▸ sound.nesting
      tier := fun tier entered => (enters tier entered).1 }
  forward := follows.forward
  pending := by
    have forward := follows.forward
    have bound := follows.within.position
    rw [Machine.pending, Machine.pending, sound.within.last_eq, follows.within.last_eq]
    omega
  consumes tier entered := (enters tier entered).2

variable {lexed : Lexed} {control next : Control} {stack : List Frame} {memory later : Memory}

theorem Sound.advances_enter (sound : Sound lexed ⟨control, stack, memory⟩)
    (ends : lexed.EndsOnce) (reading : control.opened = 1) (heavy : 4 ≤ control.weight)
    (frame : Frame) (found : memory.tokens[memory.position]? = some frame.token)
    (inside : frame.token.kind ≠ .endOfInput) {tier : Nat} (bounded : tier < 7) :
    Advances lexed ⟨control, stack, memory⟩
      ⟨.enter tier, frame :: stack, memory.pass frame.token⟩ := by
  have position := memory.position_pass inside
  have opened : opened ⟨.enter tier, frame :: stack, memory.pass frame.token⟩ =
      opened ⟨control, stack, memory⟩ := congrArg (stack.length + ·) reading.symm
  refine sound.advances (sound.within.pass ends found) opened ?_ ?_
  · -- The six of the token are more than the frame and the new expression weigh above `control`.
    have weight : (Control.enter tier).weight = 6 := rfl
    simp only [position, List.length_cons, weight]
    omega
  · rintro _ ⟨rfl⟩
    exact ⟨bounded, frame, rfl, found, position⟩

theorem Sound.advances_within (sound : Sound lexed ⟨control, stack, memory⟩)
    (follows : memory.Follows lexed later) (opened : next.opened = control.opened)
    (lighter : next.weight < control.weight) :
    Advances lexed ⟨control, stack, memory⟩ ⟨next, stack, later⟩ := by
  refine sound.advances follows (congrArg (stack.length + ·) opened) ?_ ?_
  · simp only
    omega
  · rintro tier rfl
    exact absurd lighter (Nat.not_lt.mpr control.weight_le)

theorem Sound.advances_return {node : Node} {height : Nat} {frame : Frame}
    (sound : Sound lexed ⟨.answer node height, frame :: stack, memory⟩)
    (follows : memory.Follows lexed later) (reading : next.opened = 1) (light : next.weight ≤ 4) :
    Advances lexed ⟨.answer node height, frame :: stack, memory⟩ ⟨next, stack, later⟩ := by
  refine sound.advances follows (congrArg (stack.length + ·) reading) ?_ ?_
  · have weight : (Control.answer node height).weight = 2 := rfl
    simp only [List.length_cons, weight]
    omega
  · rintro tier rfl
    exact absurd light (by simp [Control.weight])

theorem Sound.advances_open {tier : Nat} (sound : Sound lexed ⟨.enter tier, stack, memory⟩)
    (room : memory.depth < maxNesting) :
    Advances lexed ⟨.enter tier, stack, memory⟩
      ⟨.operand tier, stack, { memory with depth := memory.depth + 1 }⟩ where
  sound :=
    { within := ⟨sound.within.tokens, sound.within.position⟩
      depth := congrArg (· + 1) sound.depth
      nesting := room
      tier := nofun }
  forward := Nat.le_refl _
  pending := Nat.lt_succ_self _
  consumes := nofun

theorem Sound.depth_pos_of_leave {node : Node} {height : Nat}
    (sound : Sound lexed ⟨.leave node height, stack, memory⟩) : 0 < memory.depth := by
  have depth : memory.depth = stack.length + 1 := sound.depth
  omega

theorem Sound.advances_leave {node : Node} {height : Nat}
    (sound : Sound lexed ⟨.leave node height, stack, memory⟩) :
    Advances lexed ⟨.leave node height, stack, memory⟩
      ⟨.answer node height, stack, { memory with depth := memory.depth - 1 }⟩ where
  sound :=
    { within := ⟨sound.within.tokens, sound.within.position⟩
      depth := congrArg (· - 1) sound.depth
      nesting := Nat.le_trans (Nat.sub_le _ _) sound.nesting
      tier := nofun }
  forward := Nat.le_refl _
  pending := Nat.lt_succ_self _
  consumes := nofun

theorem Sound.advances_operand {tier : Nat} (sound : Sound lexed ⟨.operand tier, stack, memory⟩)
    (ends : lexed.EndsOnce) {token : Token}
    (found : memory.tokens[memory.position]? = some token) :
    Advances lexed ⟨.operand tier, stack, memory⟩ (operand tier stack memory token) := by
  have heavy : 4 ≤ (Control.operand tier).weight := Nat.le_succ 4
  unfold operand
  split
  next sign =>
    have inside := Token.Kind.ne_endOfInput_of_signTier sign.1
    exact sound.advances_enter ends rfl heavy (.signed tier token) found inside
      token.kind.signTier_lt_seven
  next =>
    split
    next opens =>
      have inside : token.kind ≠ .endOfInput := by
        rw [opens]
        decide
      exact sound.advances_enter ends rfl heavy (.group tier token) found inside (by decide)
    next =>
      split
      · exact sound.advances_within (sound.within.pass ends found) rfl (Nat.lt_succ_self 4)
      · exact sound.advances_within (sound.within.report _ _) rfl (Nat.lt_succ_self 4)

theorem Sound.advances_fold {tier height : Nat} {left : Node}
    (sound : Sound lexed ⟨.fold tier left height, stack, memory⟩) (ends : lexed.EndsOnce)
    {token : Token} (found : memory.tokens[memory.position]? = some token) :
    Advances lexed ⟨.fold tier left height, stack, memory⟩
      (fold tier left height stack memory token) := by
  unfold fold
  split
  next => exact sound.advances_within sound.within.keep rfl (Nat.lt_succ_self 3)
  next above =>
    have inside := Token.Kind.ne_endOfInput_of_lt_infixTier (Nat.not_le.mp above)
    exact sound.advances_enter ends rfl (Nat.le_refl 4) (.join tier left height token) found
      inside token.kind.infixTier_lt_seven

theorem Sound.advances_join {tier leftHeight height : Nat} {left right : Node} {operator : Token}
    (sound : Sound lexed
      ⟨.answer right height, .join tier left leftHeight operator :: stack, memory⟩) :
    Advances lexed ⟨.answer right height, .join tier left leftHeight operator :: stack, memory⟩
      (join tier left leftHeight operator right height stack memory) := by
  unfold join
  split
  · exact sound.advances_return (sound.within.abandon _) rfl (Nat.le_succ 3)
  · exact sound.advances_return sound.within.keep rfl (Nat.le_refl 4)

/-- Wherever the machine stands, it goes on until it is done. -/
theorem Sound.exists_step {m : Machine} (sound : m.Sound lexed) (ends : lexed.EndsOnce) :
    (∃ root endOfInput, m.control = .done root endOfInput) ∨
      ∃ next, m.step = some next ∧ m.Advances lexed next := by
  obtain ⟨token, current, found⟩ := sound.within.exists_current
  obtain ⟨control, stack, memory⟩ := m
  have fetch (f : Token → Machine) : memory.current?.map f = some (f token) := by
    rw [current, Option.map_some]
  cases control with
  | enter tier =>
    by_cases room : memory.depth < maxNesting
    · exact .inr ⟨_, if_pos room, sound.advances_open room⟩
    · exact .inr ⟨_, (if_neg room).trans (fetch _),
        sound.advances_within (sound.within.abandon _) rfl (by simp [Control.weight])⟩
  | operand tier => exact .inr ⟨_, fetch _, sound.advances_operand ends found⟩
  | fold tier left height => exact .inr ⟨_, fetch _, sound.advances_fold ends found⟩
  | leave node height =>
    have opened := sound.depth_pos_of_leave
    exact .inr ⟨_, if_neg (Nat.ne_of_gt opened), sound.advances_leave⟩
  | answer node height =>
    cases stack with
    | nil =>
      exact .inr ⟨_, fetch _,
        sound.advances_within (sound.within.finish token) rfl (Nat.lt_succ_self 1)⟩
    | cons frame stack =>
      cases frame with
      | signed tier operator =>
        exact .inr ⟨_, rfl, sound.advances_return sound.within.keep rfl (Nat.le_refl 4)⟩
      | group tier opening =>
        exact .inr ⟨_, fetch _,
          sound.advances_return (sound.within.close ends found) rfl (Nat.le_refl 4)⟩
      | join tier left leftHeight operator => exact .inr ⟨_, rfl, sound.advances_join⟩
  | finish root =>
    exact .inr ⟨_, fetch _,
      sound.advances_within (sound.within.pass ends found) rfl (Nat.lt_succ_self 0)⟩
  | done root endOfInput => exact .inl ⟨root, endOfInput, rfl⟩

theorem step_of_done {m : Machine} {root : Node} {endOfInput : Token}
    (done : m.control = .done root endOfInput) : m.step = none := by
  obtain ⟨control, stack, memory⟩ := m
  subst done
  rfl

section

variable {m next later : Machine} (ends : lexed.EndsOnce) (sound : m.Sound lexed)

include ends sound

theorem Sound.step_eq_none_iff :
    m.step = none ↔ ∃ root endOfInput, m.control = .done root endOfInput := by
  constructor
  · intro stops
    rcases sound.exists_step ends with done | ⟨next, stepped, -⟩
    · exact done
    · rw [stops] at stepped
      cases stepped
  · rintro ⟨_, _, done⟩
    exact step_of_done done

theorem Sound.advances_of_step (stepped : m.step = some next) : m.Advances lexed next := by
  rcases sound.exists_step ends with ⟨_, _, done⟩ | ⟨_, again, advances⟩
  · rw [step_of_done done] at stepped
    cases stepped
  · obtain rfl := Option.some.inj (again.symm.trans stepped)
    exact advances

theorem Sound.of_reaches (run : Reaches step m later) : later.Sound lexed := by
  induction run with
  | refl => exact sound
  | tail _ stepped ih => exact (ih.advances_of_step ends stepped).sound

theorem Sound.preserves {P : Machine → Prop} (run : Reaches step m later) (start : P m)
    (keeps : ∀ {m next : Machine}, m.step = some next → m.Advances lexed next → P m → P next) :
    P later := by
  induction run with
  | refl => exact start
  | tail before stepped ih =>
    have advances := (sound.of_reaches ends before).advances_of_step ends stepped
    exact keeps stepped advances ih

theorem Sound.position_le (run : Reaches step m later) :
    m.memory.position ≤ later.memory.position :=
  sound.preserves ends (P := fun later => m.memory.position ≤ later.memory.position) run
    (Nat.le_refl _) fun _ advances before => Nat.le_trans before advances.forward

theorem Sound.evalsToInTime (run : Reaches step m later) :
    Nonempty (EvalsToInTime step m (some later) m.pending) := by
  have counted := sound.preserves ends
    (P := fun later => ∃ n, (flip bind step)^[n] (some m) = some later ∧
      n + later.pending ≤ m.pending) run ⟨0, rfl, Nat.le_of_eq (Nat.zero_add _)⟩
  obtain ⟨n, steps, bound⟩ := counted fun stepped advances before => by
    obtain ⟨n, steps, bound⟩ := before
    have fewer := advances.pending
    refine ⟨n + 1, ?_, by omega⟩
    rw [Function.iterate_succ_apply', steps]
    exact stepped
  have few : n ≤ m.pending := by omega
  exact ⟨⟨⟨n, steps⟩, few⟩⟩

end

theorem Sound.reaches_answer {tier : Nat} (ends : lexed.EndsOnce)
    (sound : Sound lexed ⟨.enter tier, stack, memory⟩) :
    let p := expression (maxNesting - memory.depth) tier (memory.state lexed)
    Reaches step ⟨.enter tier, stack, memory⟩
      ⟨.answer p.node p.height, stack, .ofState lexed memory.depth p.state⟩ := by
  have stands : (memory.state lexed).StandsIn lexed := ⟨List.drop_suffix _ _, rfl⟩
  have limit : memory.depth + (maxNesting - memory.depth) = maxNesting :=
    Nat.add_sub_of_le sound.nesting
  have reading := reading_expression (maxNesting - memory.depth) tier (memory.state lexed)
  have run := reading.reaches ends (sound.tier tier rfl) stands limit stack
  rwa [sound.within.ofState_state] at run

theorem sound_start (lexed : Lexed) : (start lexed).Sound lexed where
  within := ⟨rfl, Nat.zero_le _⟩
  depth := rfl
  nesting := Nat.zero_le _
  tier := by
    rintro _ ⟨rfl⟩
    decide

theorem pending_start (lexed : Lexed) : (start lexed).pending = 6 * lexed.tokens.length + 6 := by
  rw [pending, (sound_start lexed).within.last_eq]
  rfl

theorem reaches_done_of_answer (ends : lexed.EndsOnce) {s : State} (stands : s.StandsIn lexed)
    (depth : Nat) (root : Node) (height : Nat) :
    Reaches step ⟨.answer root height, [], .ofState lexed depth s⟩
      ⟨.done root lexed.endOfInput, [], .ofState lexed depth s.finish⟩ := by
  have finished : step ⟨.answer root height, [], .ofState lexed depth s⟩ =
      some ⟨.finish root, [], .ofState lexed depth s.finish⟩ := by
    rw [step, Memory.current?_ofState stands, Option.map_some,
      Memory.finish_ofState stands ends]
  have last : s.finish.current = lexed.endOfInput :=
    s.current_finish.trans stands.endOfInput
  have stopped : step ⟨.finish root, [], .ofState lexed depth s.finish⟩ =
      some ⟨.done root lexed.endOfInput, [], .ofState lexed depth s.finish⟩ := by
    rw [step, Memory.current?_ofState stands.finish, Option.map_some, last, Memory.pass,
      if_pos ends.ended]
  exact .head finished (.single stopped)

theorem reaches_done (ends : lexed.EndsOnce) :
    Reaches step (start lexed)
      ⟨.done (Parse.ofLexed lexed).root lexed.endOfInput, [],
        .ofState lexed 0 (after lexed).finish⟩ := by
  have begun : start lexed = ⟨.enter 0, [], .ofState lexed 0 (Parser.start lexed)⟩ := by
    simp [start, Memory.ofState, Parser.start]
  have reading := reading_expression maxNesting 0 (Parser.start lexed)
  have stands := (State.StandsIn.start lexed).reading reading
  have answered := reading.reaches ends (by decide) (.start lexed) (Nat.zero_add maxNesting) []
  rw [begun]
  exact answered.trans (reaches_done_of_answer ends stands 0 _ _)

/-- What holds of a machine wherever it stands while a text is parsed. The position is that of a
token, and that token is the one it finds. The depth is the number of open expressions; it is within
the limit, and above zero where an expression is left. Only a machine that is done stops. From there
on the position never goes back, and another expression is entered only for the token at the
position. An expression that is entered comes to the answer that parsing gives for it, and the depth
is then the one that it was entered with. -/
structure Steady (lexed : Lexed) (m : Machine) : Prop where
  tokens : m.memory.tokens = lexed.all
  position : m.memory.position ≤ m.memory.last
  current : ∃ token, m.memory.tokens[m.memory.position]? = some token ∧
    m.memory.current? = some token
  depth : m.memory.depth = m.opened
  nesting : m.memory.depth ≤ maxNesting
  positive : ∀ node height, m.control = .leave node height → 0 < m.memory.depth
  stops : m.step = none ↔ ∃ root endOfInput, m.control = .done root endOfInput
  forward : ∀ later, Reaches step m later → m.memory.position ≤ later.memory.position
  consumes : ∀ next tier, m.step = some next → next.control = .enter tier → m.Consumes next
  answers : ∀ tier, m.control = .enter tier →
    let p := expression (maxNesting - m.memory.depth) tier (m.memory.state lexed)
    Reaches step m ⟨.answer p.node p.height, m.stack, .ofState lexed m.memory.depth p.state⟩
  restores : ∀ tier later node height, m.control = .enter tier → Reaches step m later →
    later.control = .answer node height → later.stack = m.stack →
      later.memory.depth = m.memory.depth

theorem Sound.steady {m : Machine} (sound : m.Sound lexed) (ends : lexed.EndsOnce) :
    m.Steady lexed where
  tokens := sound.within.tokens
  position := Nat.le_trans sound.within.position (Nat.le_of_eq sound.within.last_eq.symm)
  current := by
    obtain ⟨token, current, found⟩ := sound.within.exists_current
    exact ⟨token, found, current⟩
  depth := sound.depth
  nesting := sound.nesting
  positive := by
    obtain ⟨control, stack, memory⟩ := m
    rintro node height rfl
    exact sound.depth_pos_of_leave
  stops := sound.step_eq_none_iff ends
  forward later := sound.position_le ends
  consumes next tier stepped := (sound.advances_of_step ends stepped).consumes tier
  answers := by
    obtain ⟨control, stack, memory⟩ := m
    rintro tier rfl
    exact sound.reaches_answer ends
  restores := by
    intro tier later node height entered run answered same
    rw [(sound.of_reaches ends run).depth, sound.depth, opened, opened, entered, answered, same]
    rfl

end Machine

end Parser

namespace Tree

open Reckon.Parser

/-- While a text is parsed, the machine is steady wherever it comes, among tokens of which the last
one and no other ends the text. It stops at the end of the text, with the tree of the text and what
parsing reports of it, and with no expression open. For that it takes at most six steps a token and
six more. -/
theorem machine_steady_and_halts (text : String) :
    ((Lexed.ofText text).all ≠ [] ∧
      ∀ i token, (Lexed.ofText text).all[i]? = some token →
        (token.kind = .endOfInput ↔ i = (Lexed.ofText text).all.length - 1)) ∧
    (∀ m, Reaches Machine.step (.start (.ofText text)) m → m.Steady (.ofText text)) ∧
    ∃ memory : Memory,
      Nonempty (EvalsToInTime Machine.step (.start (.ofText text))
        (some ⟨.done (ofText text).root (ofText text).endOfInput, [], memory⟩)
        (6 * (Lexed.ofText text).tokens.length + 6)) ∧
      memory.position = (Lexed.ofText text).tokens.length ∧ memory.depth = 0 ∧
      Parse.ofLexed (.ofText text) = ⟨(ofText text).root, memory.reported, memory.abandoned⟩ := by
  have ends := Lexed.endsOnce_ofText text
  have sound := Machine.sound_start (.ofText text)
  refine ⟨⟨List.append_ne_nil_of_right_ne_nil _ (List.cons_ne_nil _ _), ?_⟩, ?_, ?_⟩
  · intro i token found
    rw [Lexed.length_all, Nat.add_sub_cancel]
    exact ends.kind_eq_iff found
  · intro m run
    exact (sound.of_reaches ends run).steady ends
  · have run := sound.evalsToInTime ends (Machine.reaches_done ends)
    rw [Machine.pending_start] at run
    refine ⟨_, run, ?_, rfl, rfl⟩
    simp [Memory.ofState, State.ahead_finish]

-- A text without a token takes the six steps.
example : ((flip bind Machine.step)^[6] (some (.start (.ofText "")))).map (·.step.isNone) =
    some true := by
  decide +kernel

end Tree

end Reckon
