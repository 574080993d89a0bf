-- The shape of the trie in the heap: which search tree the nodes from a pointer
-- on form. `Insert` turns the tree into the one with the word inserted, and
-- touches no other node than those of the tree and its slot.
import Anagram.TernaryTree
import Anagram.General.SearchTrie

open search_trie outcome

namespace anagram

/-- The order of the keys, which are unsigned chars. -/
instance keyOrder : LinearOrder UInt8 where
  le_refl := UInt8.le_refl
  le_trans _ _ _ := UInt8.le_trans
  le_antisymm _ _ := UInt8.le_antisymm
  le_total := UInt8.le_total
  lt_iff_le_not_ge a b := by
    rw [UInt8.not_le]
    exact ⟨fun h => ⟨UInt8.le_of_lt h, h⟩, fun h => h.2⟩
  toDecidableLE := inferInstance
  compare_eq_compareOfLessAndEq _ _ := rfl

/-! ## A tree in the heap -/

/-- From the pointer to the head on, the heap has the nodes of the tree. The nodes of a left and
of a right subtree have the parent of the node above them. -/
def Rep (heap : List TNode) : Option Nat → Tst UInt8 → Prop
  | _, .nil => True
  | parent, .node a key terminator l c r =>
    (∃ upper, heap[a]? = some ⟨parent, l.head, c.head, r.head, key, terminator, upper⟩) ∧
    Rep heap parent l ∧ Rep heap (some a) c ∧ Rep heap parent r

/-- The node that has the pointer in the slot, if it is not the root pointer. -/
def Slot.owner : Slot → Option Nat
  | .root => none
  | .left a => some a
  | .center a => some a
  | .right a => some a

theorem addrs_lt {heap : List TNode} {parent : Option Nat} {t : Tst UInt8}
    (h : Rep heap parent t) : ∀ x ∈ t.addrs, x < heap.length := by
  induction t generalizing parent with
  | nil => intro x hx; cases hx
  | node a key terminator l c r ihl ihc ihr =>
    obtain ⟨⟨upper, hnode⟩, hl, hc, hr⟩ := h
    intro x hx
    simp only [Tst.addrs, List.mem_cons, List.mem_append] at hx
    rcases hx with rfl | (hx | hx) | hx
    · exact (List.getElem?_eq_some_iff.mp hnode).1
    · exact ihl hl x hx
    · exact ihc hc x hx
    · exact ihr hr x hx

/-- A heap with the same nodes at the addresses of the tree has the tree. -/
theorem Rep.frame {heap heap' : List TNode} {parent : Option Nat} {t : Tst UInt8}
    (h : Rep heap parent t) (hsame : ∀ x ∈ t.addrs, heap'[x]? = heap[x]?) :
    Rep heap' parent t := by
  induction t generalizing parent with
  | nil => trivial
  | node a key terminator l c r ihl ihc ihr =>
    obtain ⟨⟨upper, hnode⟩, hl, hc, hr⟩ := h
    refine ⟨⟨upper, (hsame a (by simp [Tst.addrs])).trans hnode⟩, ihl hl fun x hx => ?_,
      ihc hc fun x hx => ?_, ihr hr fun x hx => ?_⟩ <;>
    · apply hsame
      simp [Tst.addrs, hx]

/-- A stem in the tree is a tree in the heap. -/
theorem Rep.stem {heap : List TNode} {parent : Option Nat} {t : Tst UInt8}
    (h : Rep heap parent t) (k : UInt8) (w : Text) : ∃ parent', Rep heap parent' (t.stem k w) := by
  induction t generalizing parent k w with
  | nil => exact ⟨none, trivial⟩
  | node a key terminator l c r ihl ihc ihr =>
    have hnode := h
    obtain ⟨-, hl, hc, hr⟩ := h
    unfold Tst.stem
    split_ifs
    · exact ihl hl k w
    · exact ihr hr k w
    · cases w with
      | nil => exact ⟨parent, hnode⟩
      | cons d w => exact ihc hc d w

/-! ## Loads and stores -/

namespace Trie

@[simp] theorem length_modify (t : Trie) (a : Nat) (f : TNode → TNode) :
    (t.modify a f).heap.length = t.heap.length := by simp [modify]

theorem modify_self (t : Trie) (a : Nat) (f : TNode → TNode) :
    (t.modify a f).heap[a]? = t.heap[a]?.map f := by simp [modify]

theorem modify_ne (t : Trie) {a x : Nat} (f : TNode → TNode) (h : x ≠ a) :
    (t.modify a f).heap[x]? = t.heap[x]? := by simp [modify, h.symm]

@[simp] theorem length_store (t : Trie) (p : Option Nat) (slot : Slot) :
    (t.store p slot).heap.length = t.heap.length := by cases slot <;> simp [store]

theorem store_ne (t : Trie) (p : Option Nat) {slot : Slot} {x : Nat} (h : slot.owner ≠ some x) :
    (t.store p slot).heap[x]? = t.heap[x]? := by
  cases slot with
  | root => rfl
  | left a => exact modify_ne t _ fun e => h (congrArg some e.symm)
  | center a => exact modify_ne t _ fun e => h (congrArg some e.symm)
  | right a => exact modify_ne t _ fun e => h (congrArg some e.symm)

/-- A new node leaves the nodes before it as they are. -/
theorem store_allocNode (t : Trie) (key : UInt8) (p : Option Nat) (slot : Slot) {x : Nat}
    (h : x < t.heap.length) :
    ((t.allocNode key).2.store p slot).heap[x]? = (t.store p slot).heap[x]? := by
  cases slot <;> simp [store, modify, allocNode, List.getElem?_modify, List.getElem?_append_left h]

theorem node_eq_ok {t : Trie} {a : Nat} {n : TNode} : t.node a = .ok n ↔ t.heap[a]? = some n := by
  unfold node
  cases t.heap[a]? <;> simp

theorem load_left {t : Trie} {a : Nat} {n : TNode} (h : t.heap[a]? = some n) :
    t.load (.left a) = .ok n.l_ := by
  rw [load, node_eq_ok.mpr h]
  rfl

theorem load_center {t : Trie} {a : Nat} {n : TNode} (h : t.heap[a]? = some n) :
    t.load (.center a) = .ok n.c_ := by
  rw [load, node_eq_ok.mpr h]
  rfl

theorem load_right {t : Trie} {a : Nat} {n : TNode} (h : t.heap[a]? = some n) :
    t.load (.right a) = .ok n.r_ := by
  rw [load, node_eq_ok.mpr h]
  rfl

/-- A slot with a node keeps it. -/
theorem ensureNode_node {t : Trie} {slot : Slot} {a : Nat} (h : t.load slot = .ok (some a))
    (c : UInt8) : t.ensureNode c slot = .ok t := by
  unfold ensureNode
  rw [h]
  rfl

/-- What a slot holds depends on the root pointer and on the node that has the slot. -/
theorem load_congr {t t' : Trie} {slot : Slot} (hroot : slot = .root → t'.root = t.root)
    (howner : ∀ a ∈ slot.owner, t'.heap[a]? = t.heap[a]?) : t'.load slot = t.load slot := by
  cases slot with
  | root => simp only [load, hroot rfl]
  | left a => simp only [load, node, howner a rfl]
  | center a => simp only [load, node, howner a rfl]
  | right a => simp only [load, node, howner a rfl]

theorem owner_lt {t : Trie} {slot : Slot} {p : Option Nat} (h : t.load slot = .ok p) :
    ∀ a ∈ slot.owner, a < t.heap.length := by
  intro a ha
  by_contra hge
  have hnone : t.heap[a]? = none := List.getElem?_eq_none (Nat.le_of_not_lt hge)
  cases slot <;> simp [Slot.owner] at ha <;> subst ha <;> simp [load, node, hnone, bind_error] at h

theorem load_store {t : Trie} {slot : Slot} (p : Option Nat)
    (h : ∀ a ∈ slot.owner, a < t.heap.length) : (t.store p slot).load slot = .ok p := by
  cases slot with
  | root => rfl
  | left a | center a | right a =>
    have ha : a < t.heap.length := h a rfl
    simp only [store, load, node]
    rw [modify_self, List.getElem?_eq_getElem ha]
    rfl

/-- A change that keeps the node it is for keeps the heap. -/
theorem modify_same {t : Trie} {a : Nat} {n : TNode} {f : TNode → TNode}
    (h : t.heap[a]? = some n) (hn : f n = n) : t.modify a f = t := by
  unfold modify
  congr 1
  apply List.ext_getElem?
  intro x
  rw [List.getElem?_modify]
  split
  · next heq => subst heq; simp [h, hn]
  · exact Option.map_id'

/-- To store what the slot holds changes nothing. -/
theorem store_load {t : Trie} {slot : Slot} {p : Option Nat} (h : t.load slot = .ok p) :
    t.store p slot = t := by
  cases slot with
  | root =>
    cases h
    rfl
  | left a | center a | right a =>
    obtain ⟨n, hn, hp⟩ := bind_eq_ok.mp h
    cases hp
    exact modify_same (node_eq_ok.mp hn) rfl

end Trie

/-! ## Reads of the word -/

theorem charAt_head (c : UInt8) (rest tail : List UInt8) :
    charAt (c :: rest ++ tail) 0 = .ok c := rfl

theorem charAt_second (c d : UInt8) (rest tail : List UInt8) :
    charAt (c :: d :: rest ++ tail) 1 = .ok d := rfl

end anagram
