import Reckon.Proofs.Node.Moves

/-!
How a text is given up. That an expression nests too deeply is reported at most once, and nothing
is reported after it: the expressions that are still open find no token any more, and they invent
what they lack without a word.
-/

set_option autoImplicit false
set_option relaxedAutoImplicit false

namespace Reckon

def Diagnostic.IsNesting (d : Diagnostic) : Prop :=
  d.problem = .nestedTooDeeply

instance : DecidablePred Diagnostic.IsNesting :=
  fun _ => inferInstanceAs (Decidable (_ = _))

namespace Parser

namespace State

/-- Nesting is reported if the text was given up, and then once, after all else, with no token
left that could be reported. -/
inductive NestingLast (s : State) : Prop
  | absent (fresh : s.abandoned = none) (others : ∀ d ∈ s.reported, ¬ d.IsNesting)
  | last (given : s.abandoned ≠ none) (settled : s.ahead = []) (earlier : List Diagnostic)
      (place : Span) (reported : s.reported = earlier ++ [.error place .nestedTooDeeply])
      (others : ∀ d ∈ earlier, ¬ d.IsNesting)

theorem reported_abandon_of_given {s : State} (given : s.abandoned ≠ none) (span : Span)
    (depth : Nat) : (s.abandon span depth).reported = s.reported := by
  cases place : s.abandoned with
  | none => exact absurd place given
  | some _ => simp only [abandon, place]

theorem reported_finish (s : State) :
    s.finish.reported = s.reported ++
      (s.ahead.head?.map fun token =>
        .error token.span (.unexpectedToken token.kind .endOfInput)).toList := by
  cases ahead : s.ahead with
  | nil => simp [finish, ahead]
  | cons token rest =>
    simp only [finish, ahead]
    rfl

theorem current_finish (s : State) : s.finish.current = s.endOfInput := by
  cases ahead : s.ahead with
  | nil => simp only [finish, current, ahead]
  | cons token rest =>
    simp only [finish, current, ahead]
    rfl

theorem abandoned_finish (s : State) : s.finish.abandoned = s.abandoned := by
  unfold finish
  split <;> rfl

namespace NestingLast

variable {s : State}

theorem report (nesting : s.NestingLast) (fresh : s.abandoned = none) (span : Span)
    {problem : Problem} (other : problem ≠ .nestedTooDeeply) :
    (s.report span problem).NestingLast := by
  cases nesting with
  | absent _ others =>
    refine .absent fresh ?_
    intro d member
    rcases List.mem_append.mp member with before | new
    · exact others d before
    · rw [List.mem_singleton.mp new]
      exact other
  | last given => exact absurd fresh given

theorem abandon (nesting : s.NestingLast) (span : Span) (depth : Nat) :
    (s.abandon span depth).NestingLast := by
  have given := s.abandoned_abandon span depth
  have settled := s.ahead_abandon span depth
  cases nesting with
  | absent fresh others =>
    exact .last given settled s.reported span (reported_abandon fresh span depth) others
  | last before _ earlier place reported others =>
    exact .last given settled earlier place
      ((reported_abandon_of_given before span depth).trans reported) others

theorem finish (nesting : s.NestingLast) : s.finish.NestingLast := by
  cases nesting with
  | absent fresh others =>
    refine .absent (s.abandoned_finish.trans fresh) ?_
    intro d member
    rw [reported_finish] at member
    rcases List.mem_append.mp member with before | new
    · exact others d before
    · obtain ⟨token, -, rfl⟩ := Option.map_eq_some_iff.mp (Option.mem_toList.mp new)
      exact Problem.noConfusion
  | last given settled earlier place reported others =>
    have same : s.finish = s := by
      simp only [State.finish, settled]
    rw [same]
    exact .last given settled earlier place reported others

end NestingLast

end State

theorem Move.nestingLast {a b : Progress} (move : Move a b) (nesting : a.state.NestingLast) :
    b.state.NestingLast := by
  cases move with
  | read inside =>
    cases nesting with
    | absent fresh others => exact .absent fresh others
    | last _ settled =>
      rw [settled] at inside
      cases inside
  | lackOperand fresh => exact nesting.report fresh _ Problem.noConfusion
  | lackClosing fresh => exact nesting.report fresh _ Problem.noConfusion
  | closeAbandoned => exact nesting
  | exhaust _ depth => exact nesting.abandon _ depth
  | drop depth => exact nesting.abandon _ depth

end Parser

theorem Lexed.not_isNesting {text : String} {d : Diagnostic}
    (member : d ∈ (ofText text).diagnostics) : ¬ d.IsNesting := by
  rcases mem_diagnostics_iff.mp member with ⟨_, _, -, rfl⟩ | ⟨_, -, -, -, rfl⟩
  · exact Problem.noConfusion
  · exact Problem.noConfusion

namespace Tree

theorem nestingLast_after (text : String) :
    (Parser.after (.ofText text)).finish.NestingLast := by
  have start : (Parser.start (.ofText text)).NestingLast :=
    .absent rfl (fun _ member => nomatch member)
  exact ((moves_root text).preserves Parser.Move.nestingLast start).finish

theorem diagnostics_eq (text : String) :
    (ofText text).diagnostics =
      (Lexed.ofText text).diagnostics ++ (Parser.after (.ofText text)).finish.reported := rfl

theorem nesting_cases (text : String) :
    ((Parser.after (.ofText text)).finish.abandoned = none ∧
      ∀ d ∈ (ofText text).diagnostics, ¬ d.IsNesting) ∨
    ((Parser.after (.ofText text)).finish.abandoned ≠ none ∧ ∃ earlier last,
      (ofText text).diagnostics = earlier ++ [last] ∧ last.IsNesting ∧
        ∀ d ∈ earlier, ¬ d.IsNesting) := by
  have either : ∀ later : List Diagnostic, (∀ d ∈ later, ¬ d.IsNesting) →
      ∀ d ∈ (Lexed.ofText text).diagnostics ++ later, ¬ d.IsNesting := by
    intro later others d member
    rcases List.mem_append.mp member with lexed | parsed
    · exact Lexed.not_isNesting lexed
    · exact others d parsed
  rw [diagnostics_eq]
  cases nestingLast_after text with
  | absent fresh others => exact .inl ⟨fresh, either _ others⟩
  | last given _ earlier place reported others =>
    refine .inr ⟨given, (Lexed.ofText text).diagnostics ++ earlier,
      .error place .nestedTooDeeply, ?_, rfl, either earlier others⟩
    rw [reported, List.append_assoc]

theorem countP_isNesting_le (text : String) :
    (ofText text).diagnostics.countP (fun d => d.IsNesting) ≤ 1 := by
  have absent : ∀ ds : List Diagnostic, (∀ d ∈ ds, ¬ d.IsNesting) →
      ds.countP (fun d => d.IsNesting) = 0 := by
    intro ds others
    simpa [List.countP_eq_zero] using others
  rcases nesting_cases text with ⟨-, others⟩ | ⟨-, earlier, last, reported, nesting, others⟩
  · rw [absent _ others]
    exact Nat.zero_le 1
  · rw [reported, List.countP_append, absent _ others]
    simp [nesting]

theorem eq_nil_of_isNesting {text : String} {earlier later : List Diagnostic} {d : Diagnostic}
    (split : (ofText text).diagnostics = earlier ++ d :: later) (nesting : d.IsNesting) :
    later = [] := by
  rcases nesting_cases text with ⟨-, others⟩ | ⟨-, before, last, reported, -, others⟩
  · exact absurd nesting (others d (by simp [split]))
  · rcases later.eq_nil_or_concat with rfl | ⟨between, final, rfl⟩
    · rfl
    · have same : earlier ++ d :: between ++ [final] = before ++ [last] := by
        rw [← reported, split]
        simp
      have inside : d ∈ before := by
        rw [← (List.append_inj' same rfl).1]
        simp
      exact absurd nesting (others d inside)

theorem abandoned_isSome_iff (text : String) :
    (Parse.ofLexed (.ofText text)).abandoned.isSome ↔
      ∃ d ∈ (ofText text).diagnostics, d.IsNesting := by
  have parsed : (Parse.ofLexed (.ofText text)).abandoned =
      (Parser.after (.ofText text)).finish.abandoned := rfl
  rw [parsed]
  rcases nesting_cases text with ⟨fresh, others⟩ | ⟨given, earlier, last, reported, nesting, -⟩
  · simpa [fresh] using others
  · have member : last ∈ (ofText text).diagnostics := by simp [reported]
    exact iff_of_true (Option.isSome_iff_ne_none.mpr given) ⟨last, member, nesting⟩

/-- That a text nests too deeply is reported at most once, exactly if the text was given up, and
nothing is reported after it. Parsing stops at the token that ends the text in either case. -/
theorem nesting_reported_last (text : String) :
    (ofText text).diagnostics.countP (fun d => d.IsNesting) ≤ 1 ∧
    (∀ earlier d later, (ofText text).diagnostics = earlier ++ d :: later → d.IsNesting →
      later = []) ∧
    ((Parse.ofLexed (.ofText text)).abandoned.isSome ↔
      ∃ d ∈ (ofText text).diagnostics, d.IsNesting) ∧
    (Parser.after (.ofText text)).finish.current = (ofText text).endOfInput ∧
    (Lexed.ofText text).all.getLast? = some (ofText text).endOfInput ∧
    (ofText text).endOfInput = ⟨.endOfInput, ⟨text.utf8ByteSize, 0⟩, "", none⟩ := by
  have stops : (Parser.after (.ofText text)).finish.current = (ofText text).endOfInput := by
    rw [Parser.State.current_finish]
    exact (traces_root text).endOfInput
  exact ⟨countP_isNesting_le text, fun _ _ _ => eq_nil_of_isNesting, abandoned_isSome_iff text,
    stops, List.getLast?_concat, rfl⟩

end Tree

end Reckon
