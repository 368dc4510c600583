import Mathlib.Data.List.Forall2
import Reckon.Proofs.Node.Addresses
import Reckon.Proofs.Node.Labels
import Reckon.Session

/-!
Drawings of trees. A tree is drawn with one line for each of its elements, and its drawing tells all
of the tree but the places and texts of its tokens: the label of a line can be told from the guides
in front of it, a label tells the kind and the value of an element, and the kinds tell how many
elements are below each node.
-/

set_option autoImplicit false
set_option relaxedAutoImplicit false

namespace Reckon

/-- A line that draws the element at an address. In front of its label it has a block of four
characters for each element above, blank if that one is the last below its parent or the root, and
a marker of whether the element itself is the last. -/
def Element.Draws (root : Element) (address : Address) (line : String) : Prop :=
  ∃ (element : Element) (blocks : List String),
    root.get? address = some element ∧ blocks.length = address.length ∧
    (∀ (depth : Nat) (block : String), blocks[depth]? = some block →
      block = if root.lastAt true (address.take depth) then "    " else "│   ") ∧
    (String.join blocks).length = 4 * address.length ∧
    line = String.join blocks ++ (if root.lastAt true address then "└──" else "├──") ++
      element.label

structure Token.Agrees (s t : Token) : Prop where
  kind : s.kind = t.kind
  value : s.value = t.value

/-- Nodes of one shape, of the same kinds and with tokens of the same kinds and values. -/
inductive Node.Agrees : Node → Node → Prop
  | literal {s t : Token} (token : s.Agrees t) (v w : Option Value) :
      Agrees (.literal s v) (.literal t w)
  | unary {s t : Token} {m n : Node} (operator : s.Agrees t) (operand : Agrees m n) :
      Agrees (.unary s m) (.unary t n)
  | binary {s t : Token} {l m r n : Node} (left : Agrees l m) (operator : s.Agrees t)
      (right : Agrees r n) : Agrees (.binary l s r) (.binary m t n)
  | group {s t u v : Token} {m n : Node} (opening : s.Agrees t) (inner : Agrees m n)
      (closing : u.Agrees v) : Agrees (.group s m u) (.group t n v)

namespace Row

def isFrame (c : Char) : Bool :=
  c = ' ' || c = '│' || c = '└' || c = '├' || c = '─'

theorem all_isFrame (last : Bool) :
    (guide last).toList.all isFrame = true ∧ (corner last).toList.all isFrame = true := by
  cases last <;> decide +kernel

theorem isFrame_of_mem {above : List Bool} {last : Bool} {c : Char}
    (member : c ∈ (String.join (above.map guide) ++ corner last).toList) : isFrame c = true := by
  rw [String.toList_append, String.toList_join] at member
  rcases List.mem_append.mp member with guides | marker
  · obtain ⟨block, among, inside⟩ := List.mem_flatMap.mp guides
    obtain ⟨b, -, rfl⟩ := List.mem_map.mp among
    exact List.all_eq_true.mp (all_isFrame b).1 c inside
  · exact List.all_eq_true.mp (all_isFrame last).2 c marker

def unframe (line : String) : String :=
  String.ofList (line.toList.dropWhile isFrame)

theorem unframe_line (r : Row) : unframe r.line = r.element.label := by
  obtain ⟨c, cs, label, letter⟩ := r.element.label_eq_cons
  have other : ¬ isFrame c = true := by
    intro framed
    simp only [isFrame, Bool.or_eq_true, decide_eq_true_eq, or_assoc] at framed
    rcases framed with rfl | rfl | rfl | rfl | rfl <;> cases letter
  rw [unframe, line, String.toList_append, List.dropWhile_append_of_pos fun _ => isFrame_of_mem,
    label, List.dropWhile_cons_of_neg other, ← label, String.ofList_toList]

theorem feed_notMem_line (r : Row) : '\n' ∉ r.line.toList := by
  rw [line, String.toList_append, List.mem_append]
  rintro (front | label)
  · cases isFrame_of_mem front
  · exact r.element.feed_notMem_label label

theorem length_join_guide (above : List Bool) :
    (String.join (above.map guide)).length = 4 * above.length := by
  induction above with
  | nil => rfl
  | cons last above ih =>
    have block : (guide last).length = 4 := by cases last <;> rfl
    rw [List.map_cons, String.join_cons, String.length_append, ih, block, List.length_cons]
    omega

end Row

theorem toList_unlines_cons (line : String) (lines : List String) :
    (unlines (line :: lines)).toList = line.toList ++ '\n' :: (unlines lines).toList := by
  simp [unlines]

theorem unlines_inj {a b : List String} (first : ∀ line ∈ a, '\n' ∉ line.toList)
    (second : ∀ line ∈ b, '\n' ∉ line.toList) (same : unlines a = unlines b) : a = b := by
  have front {line : List Char} (noFeed : '\n' ∉ line) (rest : List Char) :
      (line ++ '\n' :: rest).takeWhile (· ≠ '\n') = line := by
    have inside : ∀ c ∈ line, decide (c ≠ '\n') = true := by
      intro c member
      exact decide_eq_true fun feed => noFeed (feed ▸ member)
    rw [List.takeWhile_append_of_pos inside, List.takeWhile_cons_of_neg (by simp), List.append_nil]
  induction a generalizing b with
  | nil =>
    cases b with
    | nil => rfl
    | cons m ms =>
      have chars := congrArg String.toList same
      rw [toList_unlines_cons] at chars
      simp [unlines] at chars
  | cons l ls ih =>
    have chars := congrArg String.toList same
    cases b with
    | nil =>
      rw [toList_unlines_cons] at chars
      simp [unlines] at chars
    | cons m ms =>
      obtain ⟨noFeed, others⟩ := List.forall_mem_cons.mp first
      obtain ⟨noFeed', others'⟩ := List.forall_mem_cons.mp second
      rw [toList_unlines_cons, toList_unlines_cons] at chars
      have line : l.toList = m.toList := by
        rw [← front noFeed (unlines ls).toList, chars, front noFeed']
      rw [line] at chars
      have rest := (List.cons.inj (List.append_cancel_left chars)).2
      rw [String.toList_inj.mp line, ih others others' (String.toList_inj.mp rest)]

theorem Token.agrees_iff {s t : Token} :
    s.Agrees t ↔ (Element.token s).label = (Element.token t).label := by
  constructor
  · intro agrees
    simp only [Element.label, Element.kindName, Element.value, agrees.kind, agrees.value]
  · intro same
    obtain ⟨kind, value⟩ := Element.label_inj same
    exact ⟨Kind.name_inj kind, value⟩

namespace Node

def labels : Node → List String
  | .literal token value => [(literal token value).kindName, (Element.token token).label]
  | .unary operator operand =>
    (unary operator operand).kindName :: (Element.token operator).label :: operand.labels
  | .binary left operator right =>
    (binary left operator right).kindName ::
      (left.labels ++ (Element.token operator).label :: right.labels)
  | .group opening inner closing =>
    (group opening inner closing).kindName :: (Element.token opening).label ::
      (inner.labels ++ [(Element.token closing).label])

theorem map_label_walkFrom (n : Node) (above : List Bool) (last : Bool) :
    (n.walkFrom above last).map (·.element.label) = n.labels := by
  induction n generalizing above last with
  | literal _ _ => rfl
  | unary _ _ ih =>
    rw [walkFrom, List.map_cons, List.map_cons, ih]
    rfl
  | binary _ _ _ ihl ihr =>
    rw [walkFrom, List.map_cons, List.map_append, List.map_cons, ihl, ihr]
    rfl
  | group _ _ _ ih =>
    rw [walkFrom, List.map_cons, List.map_cons, List.map_append, ih]
    rfl

private theorem kindName_of_labels {m n : Node} {rest more : List String}
    (same : m.labels ++ rest = n.labels ++ more) : m.kindName = n.kindName := by
  have first (n : Node) : n.labels.head? = some n.kindName := by cases n <;> rfl
  have heads := congrArg List.head? same
  rw [List.head?_append, List.head?_append, first, first] at heads
  exact Option.some.inj heads

/-- The labels of a node tell where they end, and the node but for places and texts. -/
theorem agrees_of_labels {m n : Node} {rest more : List String}
    (same : m.labels ++ rest = n.labels ++ more) : m.Agrees n ∧ rest = more := by
  have kind := kindName_of_labels same
  induction m generalizing n rest more with
  | literal s v =>
    cases n with
    | literal t w =>
      obtain ⟨-, token, rest⟩ := by
        simpa only [labels, List.cons_append, List.nil_append, List.cons.injEq] using same
      exact ⟨.literal (Token.agrees_iff.mpr token) v w, rest⟩
    | _ => exact absurd kind (by simp [kindName])
  | unary s m ih =>
    cases n with
    | unary t n =>
      obtain ⟨-, token, below⟩ := by
        simpa only [labels, List.cons_append, List.cons.injEq] using same
      obtain ⟨operand, rest⟩ := ih below (kindName_of_labels below)
      exact ⟨.unary (Token.agrees_iff.mpr token) operand, rest⟩
    | _ => exact absurd kind (by simp [kindName])
  | binary l s r ihl ihr =>
    cases n with
    | binary m t n =>
      obtain ⟨-, below⟩ := by
        simpa only [labels, List.cons_append, List.append_assoc, List.cons.injEq] using same
      obtain ⟨left, behind⟩ := ihl below (kindName_of_labels below)
      obtain ⟨token, last⟩ := List.cons.inj behind
      obtain ⟨right, rest⟩ := ihr last (kindName_of_labels last)
      exact ⟨.binary left (Token.agrees_iff.mpr token) right, rest⟩
    | _ => exact absurd kind (by simp [kindName])
  | group s m u ih =>
    cases n with
    | group t n v =>
      obtain ⟨-, opening, below⟩ := by
        simpa only [labels, List.cons_append, List.append_assoc, List.nil_append,
          List.cons.injEq] using same
      obtain ⟨inner, behind⟩ := ih below (kindName_of_labels below)
      obtain ⟨closing, rest⟩ := List.cons.inj behind
      exact ⟨.group (Token.agrees_iff.mpr opening) inner (Token.agrees_iff.mpr closing), rest⟩
    | _ => exact absurd kind (by simp [kindName])

theorem Agrees.map_line_walkFrom {m n : Node} (agrees : m.Agrees n) (above : List Bool)
    (last : Bool) :
    (m.walkFrom above last).map Row.line = (n.walkFrom above last).map Row.line := by
  have node {above : List Bool} {last : Bool} {m n : Node} (same : m.kindName = n.kindName) :
      Row.line ⟨above, last, .node m⟩ = Row.line ⟨above, last, .node n⟩ := by
    exact congrArg (_ ++ ·) same
  have token {above : List Bool} {last : Bool} {s t : Token} (same : s.Agrees t) :
      Row.line ⟨above, last, .token s⟩ = Row.line ⟨above, last, .token t⟩ := by
    exact congrArg (_ ++ ·) (Token.agrees_iff.mp same)
  induction agrees generalizing above last with
  | @literal s t literal v w =>
    have root : (Node.literal s v).kindName = (Node.literal t w).kindName := rfl
    simp only [walkFrom, List.map_cons, List.map_nil, node root, token literal]
  | @unary s t m n operator operand ih =>
    have root : (Node.unary s m).kindName = (Node.unary t n).kindName := rfl
    simp only [walkFrom, List.map_cons, node root, token operator, ih]
  | @binary s t l m r n left operator right ihl ihr =>
    have root : (Node.binary l s r).kindName = (Node.binary m t n).kindName := rfl
    simp only [walkFrom, List.map_cons, List.map_append, node root, token operator, ihl, ihr]
  | @group s t u v m n opening inner closing ih =>
    have root : (Node.group s m u).kindName = (Node.group t n v).kindName := rfl
    simp only [walkFrom, List.map_cons, List.map_append, List.map_nil, node root, token opening,
      token closing, ih]

theorem map_unframe_draw (n : Node) : n.draw.map Row.unframe = n.labels := by
  rw [draw, List.map_map, ← map_label_walkFrom n [] true]
  exact congrArg (List.map · _) (funext Row.unframe_line)

theorem draw_eq_iff {m n : Node} : m.draw = n.draw ↔ m.Agrees n := by
  constructor
  · intro same
    have labels : m.labels ++ [] = n.labels ++ [] := by
      rw [← map_unframe_draw, ← map_unframe_draw, same]
    exact (agrees_of_labels labels).1
  · intro agrees
    exact agrees.map_line_walkFrom [] true

theorem feed_notMem_of_mem_draw {n : Node} {line : String} (member : line ∈ n.draw) :
    '\n' ∉ line.toList := by
  obtain ⟨r, -, rfl⟩ := List.mem_map.mp member
  exact r.feed_notMem_line

theorem draws_of_row? {root : Element} {address : Address} {r : Row}
    (found : root.row? [] true address = some r) : root.Draws address r.line := by
  obtain ⟨element, there, rfl⟩ := Option.map_eq_some_iff.mp found
  refine ⟨element, _, there, ?_, ?_, ?_, rfl⟩
  · simp
  · intro depth block inside
    simp only [List.nil_append, List.getElem?_map, Option.map_map, Option.map_eq_some_iff] at inside
    obtain ⟨level, among, rfl⟩ := inside
    obtain ⟨_, rfl⟩ := List.getElem?_eq_some_iff.mp among
    rw [List.getElem_range]
    rfl
  · rw [Row.length_join_guide]
    simp

theorem forall₂_draw (n : Node) :
    List.Forall₂ (Element.node n).Draws n.addresses n.draw := by
  have rows : List.Forall₂ (· = ·) (n.addresses.map ((Element.node n).row? [] true))
      (n.walk.map some) := by
    rw [List.forall₂_eq_eq_eq]
    exact Element.map_row?_addresses (.node n) [] true
  rw [List.forall₂_map_left_iff, List.forall₂_map_right_iff] at rows
  rw [draw, List.forall₂_map_right_iff]
  exact rows.imp fun _ _ => draws_of_row?

/-- A tree is drawn with one line for each of its elements, parents first and then from left to
right, each behind one guide for every element above it; and two drawings are the same text exactly
if their trees agree in shape, in kinds and in the values of their tokens. -/
theorem draw_complete_and_readable (n : Node) :
    (∃ addresses : List Address,
      addresses.Pairwise (List.Lex (· < ·)) ∧
      (∀ address, address ∈ addresses ↔ ((Element.node n).get? address).isSome) ∧
      List.Forall₂ (Element.node n).Draws addresses n.draw) ∧
    (∀ line ∈ n.draw, '\n' ∉ line.toList) ∧
    ∀ m : Node, unlines m.draw = unlines n.draw ↔ m.Agrees n := by
  have feeds (n : Node) : ∀ line ∈ n.draw, '\n' ∉ line.toList :=
    fun _ => feed_notMem_of_mem_draw
  refine ⟨⟨n.addresses, Element.pairwise_addresses (.node n), Element.mem_addresses_iff (.node n),
    n.forall₂_draw⟩, feeds n, fun m => ?_⟩
  rw [← draw_eq_iff]
  constructor
  · intro same
    exact unlines_inj (feeds m) (feeds n) same
  · intro same
    rw [same]

end Node

end Reckon
