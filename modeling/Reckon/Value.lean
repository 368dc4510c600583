/-!
Values and their types. Integers are 64-bit and signed; arithmetic on them is exact and is
narrowed to that range afterwards.
-/

set_option autoImplicit false
set_option relaxedAutoImplicit false

namespace Reckon

inductive Ty
  | integer | boolean
  deriving DecidableEq

namespace Ty

def all : List Ty :=
  [.integer, .boolean]

def name : Ty → String
  | .integer => "Integer"
  | .boolean => "Boolean"

def ofName? (s : String) : Option Ty :=
  all.find? (·.name == s)

end Ty

inductive Value
  | integer (n : Int64)
  | boolean (b : Bool)
  deriving DecidableEq

/-- The 64-bit integer equal to `n`, if there is one. -/
def narrow? (n : Int) : Option Int64 :=
  if Int64.minValue.toInt ≤ n ∧ n ≤ Int64.maxValue.toInt then some (Int64.ofInt n) else none

theorem toInt_of_narrow? {n : Int} {m : Int64} (h : narrow? n = some m) : m.toInt = n := by
  unfold narrow? at h
  split at h
  next hn =>
    cases h
    rw [Int64.toInt_minValue, Int64.toInt_maxValue] at hn
    exact Int64.toInt_ofInt_of_le hn.1 (by omega)
  next => cases h

@[simp] theorem narrow?_toInt (m : Int64) : narrow? m.toInt = some m := by
  unfold narrow?
  rw [if_pos ⟨m.minValue_le_toInt, m.toInt_le⟩, Int64.ofInt_toInt]

namespace Value

def ty : Value → Ty
  | .integer _ => .integer
  | .boolean _ => .boolean

def render : Value → String
  | .integer n => toString n.toInt
  | .boolean true => "true"
  | .boolean false => "false"

theorem render_integer (n : Int64) :
    (integer n).render =
      if 0 ≤ n.toInt then toString n.toInt.toNat else "-" ++ toString (-n.toInt).toNat := by
  rw [render, Int.toString_eq_repr, Int.repr_eq_if, Nat.toString_eq_repr, Nat.toString_eq_repr]

end Value

end Reckon
