import Mathlib.Data.List.Basic
import Reckon.Node.Basic

/-!
Addresses of the elements of a tree. An address counts children on the way down from the root, so
that the order of addresses is that of a walk with parents first and then from left to right. The
walk through a tree meets every address once, in this order, and each row tells of its element, and
of those above it, whether they are the last ones below their parents.
-/

set_option autoImplicit false
set_option relaxedAutoImplicit false

namespace Reckon

/-- Where an element stands below a root: which child to go to, level by level. -/
abbrev Address := List Nat

def Node.addresses : Node → List Address
  | .literal _ _ => [[], [0]]
  | .unary _ operand => [] :: [0] :: operand.addresses.map (1 :: ·)
  | .binary left _ right =>
    [] :: (left.addresses.map (0 :: ·) ++ [1] :: right.addresses.map (2 :: ·))
  | .group _ inner _ => [] :: [0] :: (inner.addresses.map (1 :: ·) ++ [[2]])

namespace Element

def children : Element → List Element
  | .node n => n.children
  | .token _ => []

/-- The element at an address, if there is one. -/
def get? : Element → Address → Option Element
  | e, [] => some e
  | e, i :: address => e.children[i]?.bind (get? · address)

/-- Whether the element at an address is the last one below its parent; of the root, `last` tells
this. -/
def lastAt (last : Bool) (root : Element) (address : Address) : Bool :=
  match address.getLast? with
  | none => last
  | some i => (root.get? address.dropLast).any fun parent => i + 1 == parent.children.length

def addresses : Element → List Address
  | .node n => n.addresses
  | .token _ => [[]]

def walkFrom (above : List Bool) (last : Bool) : Element → List Row
  | .node n => n.walkFrom above last
  | .token t => [⟨above, last, .token t⟩]

def row? (above : List Bool) (last : Bool) (root : Element) (address : Address) : Option Row :=
  (root.get? address).map fun e =>
    ⟨above ++ (List.range address.length).map fun depth => root.lastAt last (address.take depth),
      root.lastAt last address, e⟩

/-- What holds of an element if it holds of those directly below it holds of all elements. -/
@[elab_as_elim]
theorem induction {motive : Element → Prop}
    (step : ∀ e : Element, (∀ c ∈ e.children, motive c) → motive e) (e : Element) : motive e := by
  have ofToken (t : Token) : motive (.token t) := step _ fun c member => by cases member
  have ofNode (n : Node) : motive (.node n) := by
    induction n with
    | literal t v =>
      exact step _ (by simp [children, Node.children, ofToken])
    | unary t n ih => exact step _ (by simp [children, Node.children, ofToken, ih])
    | binary l t r ihl ihr => exact step _ (by simp [children, Node.children, ofToken, ihl, ihr])
    | group s n t ih => exact step _ (by simp [children, Node.children, ofToken, ih])
  cases e with
  | node n => exact ofNode n
  | token t => exact ofToken t

theorem addresses_eq (e : Element) :
    e.addresses = [] :: e.children.zipIdx.flatMap fun c => c.1.addresses.map (c.2 :: ·) := by
  cases e with
  | token t => rfl
  | node n => cases n <;> simp [addresses, Node.addresses, children, Node.children]

theorem walkFrom_eq (above : List Bool) (last : Bool) (e : Element) :
    e.walkFrom above last =
      ⟨above, last, e⟩ :: e.children.zipIdx.flatMap fun c =>
        c.1.walkFrom (above ++ [last]) (c.2 + 1 == e.children.length) := by
  cases e with
  | token t => rfl
  | node n => cases n <;> simp [walkFrom, Node.walkFrom, children, Node.children]

theorem get?_cons {e c : Element} {i : Nat} (child : e.children[i]? = some c) (address : Address) :
    e.get? (i :: address) = c.get? address := by
  rw [get?, child, Option.bind_some]

theorem lastAt_cons {e c : Element} {i : Nat} (child : e.children[i]? = some c) (last : Bool)
    (address : Address) :
    e.lastAt last (i :: address) = c.lastAt (i + 1 == e.children.length) address := by
  cases address with
  | nil => rfl
  | cons j address =>
    simp only [lastAt, List.dropLast_cons_cons, get?_cons child, List.getLast?_cons,
      Option.getD_some]

theorem row?_cons {e c : Element} {i : Nat} (child : e.children[i]? = some c) (above : List Bool)
    (last : Bool) (address : Address) :
    e.row? above last (i :: address) =
      c.row? (above ++ [last]) (i + 1 == e.children.length) address := by
  have root : e.lastAt last [] = last := rfl
  simp only [row?, get?_cons child, lastAt_cons child, List.length_cons, List.range_succ_eq_map,
    List.map_cons, List.map_map, Function.comp_def, List.take_zero, List.take_succ_cons, root,
    List.append_assoc, List.singleton_append]

theorem mem_addresses_iff (e : Element) (address : Address) :
    address ∈ e.addresses ↔ (e.get? address).isSome := by
  induction e using induction generalizing address with
  | step e ih =>
    rw [addresses_eq]
    cases address with
    | nil => simp [get?]
    | cons i address =>
      cases child : e.children[i]? with
      | none => simp [get?, List.mem_zipIdx_iff_getElem?, child]
      | some c =>
        have below := ih c (List.mem_of_getElem? child) address
        simp [get?_cons child, List.mem_zipIdx_iff_getElem?, child, below]

theorem pairwise_addresses (e : Element) : e.addresses.Pairwise (List.Lex (· < ·)) := by
  induction e using induction with
  | step e ih =>
    have numbers : e.children.zipIdx.Pairwise fun c d => c.2 < d.2 := by
      rw [← List.pairwise_map, List.zipIdx_map_snd]
      exact List.pairwise_lt_range'
    rw [addresses_eq]
    refine .cons (fun address member => ?_) (List.pairwise_flatMap.mpr ⟨fun c member => ?_, ?_⟩)
    · obtain ⟨c, -, below⟩ := List.mem_flatMap.mp member
      obtain ⟨rest, -, rfl⟩ := List.mem_map.mp below
      exact .nil
    · have child := List.mem_of_getElem? (List.mem_zipIdx_iff_getElem?.mp member)
      exact List.pairwise_map.mpr ((ih c.1 child).imp .cons)
    · refine numbers.imp fun less first among second other => ?_
      obtain ⟨_, -, rfl⟩ := List.mem_map.mp among
      obtain ⟨_, -, rfl⟩ := List.mem_map.mp other
      exact .rel less

theorem map_row?_addresses (e : Element) (above : List Bool) (last : Bool) :
    e.addresses.map (e.row? above last) = (e.walkFrom above last).map some := by
  induction e using induction generalizing above last with
  | step e ih =>
    have first : e.row? above last [] = some ⟨above, last, e⟩ := by
      simp [row?, get?, lastAt]
    rw [addresses_eq, walkFrom_eq, List.map_cons, List.map_cons, first, List.map_flatMap,
      List.map_flatMap]
    refine congrArg (_ :: ·) (List.flatMap_congr fun c member => ?_)
    have child := List.mem_zipIdx_iff_getElem?.mp member
    rw [List.map_map, ← ih c.1 (List.mem_of_getElem? child)]
    exact congrArg (List.map · _) (funext (row?_cons child above last))

end Element

end Reckon
