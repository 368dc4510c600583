import Mathlib.Data.List.Basic
import Reckon.Node.Basic

/-!
Labels of the elements of a tree. No two values are written alike, and no two kinds have one name.
A name has only letters, so that a label tells where it ends: elements with one label are of one
kind and have one value.
-/

set_option autoImplicit false
set_option relaxedAutoImplicit false

namespace Reckon

namespace Value

private theorem eq_of_toString_eq {j k : Nat} (same : toString j = toString k) : j = k := by
  rw [Nat.toString_eq_ofList_toDigits, Nat.toString_eq_ofList_toDigits] at same
  have digits : Nat.toDigits 10 j = Nat.toDigits 10 k := String.ofList_injective same
  calc j = Nat.ofDigitChars 10 (Nat.toDigits 10 j) 0 := Nat.ofDigitChars_ten_toDigits.symm
    _ = Nat.ofDigitChars 10 (Nat.toDigits 10 k) 0 := by rw [digits]
    _ = k := Nat.ofDigitChars_ten_toDigits

private theorem isDigit_of_mem_toString {k : Nat} {c : Char}
    (member : c ∈ (toString k).toList) : c.isDigit = true := by
  rw [Nat.toString_eq_ofList_toDigits, String.toList_ofList] at member
  exact Nat.isDigit_of_mem_toDigits (by decide) (by decide) member

theorem isDigit_or_minus_of_mem_render {n : Int64} {c : Char}
    (member : c ∈ (integer n).render.toList) : c.isDigit = true ∨ c = '-' := by
  rw [render_integer] at member
  by_cases sign : 0 ≤ n.toInt
  · rw [if_pos sign] at member
    exact .inl (isDigit_of_mem_toString member)
  · rw [if_neg sign, String.toList_append] at member
    rcases List.mem_append.mp member with front | back
    · exact .inr (by simpa using front)
    · exact .inl (isDigit_of_mem_toString back)

theorem minus_mem_render_iff (n : Int64) : '-' ∈ (integer n).render.toList ↔ ¬ 0 ≤ n.toInt := by
  rw [render_integer]
  by_cases sign : 0 ≤ n.toInt
  · rw [if_pos sign]
    refine iff_of_false (fun member => ?_) (not_not_intro sign)
    cases isDigit_of_mem_toString member
  · rw [if_neg sign]
    exact iff_of_true (by simp) sign

theorem render_integer_inj {m n : Int64} (same : (integer m).render = (integer n).render) :
    m = n := by
  have signs : 0 ≤ m.toInt ↔ 0 ≤ n.toInt := by
    rw [← not_iff_not, ← minus_mem_render_iff, same, minus_mem_render_iff]
  rw [render_integer, render_integer] at same
  apply Int64.toInt_inj.mp
  by_cases sign : 0 ≤ m.toInt
  · rw [if_pos sign, if_pos (signs.mp sign)] at same
    have size := eq_of_toString_eq same
    omega
  · rw [if_neg sign, if_neg (mt signs.mpr sign)] at same
    have size := eq_of_toString_eq ((String.append_right_inj "-").mp same)
    omega

theorem render_inj {v w : Value} (same : v.render = w.render) : v = w := by
  have distinct (n : Int64) (b : Bool) : (integer n).render ≠ (boolean b).render := by
    intro equal
    have letter : 'e' ∈ (boolean b).render.toList := by
      cases b <;> simp [render]
    rw [← equal] at letter
    rcases isDigit_or_minus_of_mem_render letter with digit | minus
    · cases digit
    · cases minus
  cases v with
  | integer m =>
    cases w with
    | integer n => rw [render_integer_inj same]
    | boolean b => exact absurd same (distinct m b)
  | boolean a =>
    cases w with
    | integer n => exact absurd same.symm (distinct n a)
    | boolean b =>
      have words : ∀ a b : Bool, (boolean a).render = (boolean b).render → a = b := by decide
      rw [words a b same]

theorem feed_notMem_render (v : Value) : '\n' ∉ v.render.toList := by
  cases v with
  | integer n =>
    intro member
    rcases isDigit_or_minus_of_mem_render member with digit | minus
    · cases digit
    · cases minus
  | boolean b => cases b <;> simp [render]

end Value

theorem Token.Kind.name_inj {j k : Token.Kind} (same : j.name = k.name) : j = k := by
  have found := ofName?_name j
  rw [same, ofName?_name] at found
  exact (Option.some.inj found).symm

namespace Element

theorem isAlpha_kindName (e : Element) : e.kindName.toList.all Char.isAlpha = true := by
  cases e with
  | node n => cases n <;> simp [kindName, Node.kindName]
  | token t =>
    show t.kind.name.toList.all Char.isAlpha = true
    cases t.kind <;> simp [Token.Kind.name]

theorem takeWhile_label (e : Element) :
    e.label.toList.takeWhile Char.isAlpha = e.kindName.toList := by
  have word := List.all_eq_true.mp e.isAlpha_kindName
  unfold label
  cases e.value with
  | none => simpa using @List.takeWhile_append_of_pos _ _ _ [] word
  | some v =>
    have stop : (":   " ++ v.render).toList.takeWhile Char.isAlpha = [] := by simp
    simp only [String.append_assoc]
    rw [String.toList_append, List.takeWhile_append_of_pos word, stop, List.append_nil]

theorem label_inj {e f : Element} (same : e.label = f.label) :
    e.kindName = f.kindName ∧ e.value = f.value := by
  have kind : e.kindName = f.kindName := by
    rw [← String.toList_inj, ← takeWhile_label, same, takeWhile_label]
  refine ⟨kind, ?_⟩
  unfold label at same
  rw [kind] at same
  have longer (name : String) (v : Value) : name ++ ":   " ++ v.render ≠ name := by
    intro equal
    have size := congrArg String.length equal
    have gap : ":   ".length = 4 := rfl
    rw [String.length_append, String.length_append] at size
    omega
  cases first : e.value with
  | none =>
    cases second : f.value with
    | none => rfl
    | some w =>
      simp only [first, second] at same
      exact absurd same.symm (longer _ w)
  | some v =>
    cases second : f.value with
    | none =>
      simp only [first, second] at same
      exact absurd same (longer _ v)
    | some w =>
      simp only [first, second] at same
      rw [Value.render_inj ((String.append_right_inj _).mp same)]

theorem label_eq_cons (e : Element) : ∃ c cs, e.label.toList = c :: cs ∧ c.isAlpha = true := by
  have word := e.takeWhile_label
  have nonempty : e.kindName.toList ≠ [] := by
    cases e with
    | node n => cases n <;> simp [kindName, Node.kindName]
    | token t =>
      show t.kind.name.toList ≠ []
      cases t.kind <;> simp [Token.Kind.name]
  cases chars : e.label.toList with
  | nil =>
    rw [chars] at word
    exact absurd word.symm nonempty
  | cons c cs =>
    refine ⟨c, cs, rfl, ?_⟩
    by_contra other
    rw [chars, List.takeWhile_cons_of_neg other] at word
    exact nonempty word.symm

theorem feed_notMem_label (e : Element) : '\n' ∉ e.label.toList := by
  have word := List.all_eq_true.mp e.isAlpha_kindName
  have kind : '\n' ∉ e.kindName.toList := by
    intro member
    cases word '\n' member
  unfold label
  cases e.value with
  | none => exact kind
  | some v => simp [kind, v.feed_notMem_render]

end Element

end Reckon
