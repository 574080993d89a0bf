-- The parent links of a trie. Between two calls of `Insert`, a node on the
-- sibling chain of the root has no parent, and a node on the chain below a
-- center link has the node with that link. So to climb by the parents is to go
-- back the way that the links led down.
import Anagram.ExtrapolateLaws

open search_trie outcome

namespace anagram

/-! ## Chains and paths -/

/-- From the pointer on, left and right links lead to the node `b`. -/
inductive OnChain (T : Trie) : Option Nat → Nat → Prop
  | head {b : Nat} {n : TNode} : T.heap[b]? = some n → OnChain T (some b) b
  | left {a b : Nat} {n : TNode} : T.heap[a]? = some n → OnChain T n.l_ b → OnChain T (some a) b
  | right {a b : Nat} {n : TNode} : T.heap[a]? = some n → OnChain T n.r_ b → OnChain T (some a) b

/-- From the node `a` down to the node `b` lead center links, each to a node on the chain below
it, and these nodes have the keys. -/
inductive Path (T : Trie) (a : Nat) : Text → Nat → Prop
  | here : Path T a [] a
  | down {keys : Text} {b c : Nat} {n m : TNode} : Path T a keys b → T.heap[b]? = some n →
      OnChain T n.c_ c → T.heap[c]? = some m → Path T a (keys ++ [m.key_]) c

/-- The parent of a node is the one with the center link to its chain, if there is one. -/
structure ParentLinks (T : Trie) : Prop where
  root : ∀ b n, OnChain T T.root b → T.heap[b]? = some n → n.parent_ = none
  center : ∀ a n b m, T.heap[a]? = some n → OnChain T n.c_ b → T.heap[b]? = some m →
    m.parent_ = some a

/-! ## The parents in a tree -/

section
variable {T : Trie} {parent : Option Nat} {t : Tst UInt8}

/-- The nodes on the chain of a tree are among its nodes, and have the parent of the tree. -/
theorem Rep.onChain (h : Rep T.heap parent t) {b : Nat} (hb : OnChain T t.head b) {n : TNode}
    (hn : T.heap[b]? = some n) : b ∈ t.addrs ∧ n.parent_ = parent := by
  induction t with
  | nil => cases hb
  | node a key terminator l c r ihl ihc ihr =>
    obtain ⟨⟨upper, hnode⟩, hl, hc, hr⟩ := h
    simp only [Tst.addrs, List.mem_cons, List.mem_append]
    rw [Tst.head_node] at hb
    cases hb with
    | head _ =>
      rw [hnode] at hn
      cases hn
      exact ⟨Or.inl rfl, rfl⟩
    | left ha hb =>
      rw [hnode] at ha
      cases ha
      obtain ⟨hmem, hparent⟩ := ihl hl hb
      exact ⟨Or.inr (Or.inl (Or.inl hmem)), hparent⟩
    | right ha hb =>
      rw [hnode] at ha
      cases ha
      obtain ⟨hmem, hparent⟩ := ihr hr hb
      exact ⟨Or.inr (Or.inr hmem), hparent⟩

/-- The center link of a node of a tree leads to a tree with the node as its parent. -/
theorem Rep.center (h : Rep T.heap parent t) (hnodup : t.addrs.Nodup) {b : Nat}
    (hb : b ∈ t.addrs) {n : TNode} (hn : T.heap[b]? = some n) :
    ∃ c, Rep T.heap (some b) c ∧ c.head = n.c_ ∧ c.addrs.Nodup ∧ c.addrs ⊆ t.addrs ∧
      b ∉ c.addrs := by
  -- what is below a part of the tree is below the tree
  have hup : ∀ {s s' : Tst UInt8}, s.addrs ⊆ s'.addrs →
      (∃ c, Rep T.heap (some b) c ∧ c.head = n.c_ ∧ c.addrs.Nodup ∧ c.addrs ⊆ s.addrs ∧
        b ∉ c.addrs) →
      ∃ c, Rep T.heap (some b) c ∧ c.head = n.c_ ∧ c.addrs.Nodup ∧ c.addrs ⊆ s'.addrs ∧
        b ∉ c.addrs := by
    rintro s s' hsub ⟨c, hrep, hhead, hnodup', hsub', hnot⟩
    exact ⟨c, hrep, hhead, hnodup', List.Subset.trans hsub' hsub, hnot⟩
  induction t generalizing parent with
  | nil => cases hb
  | node a key terminator l c r ihl ihc ihr =>
    have hapart := Tst.apart_of_nodup hnodup
    obtain ⟨⟨upper, hnode⟩, hl, hc, hr⟩ := h
    simp only [Tst.addrs, List.mem_cons, List.mem_append] at hb
    rcases hb with rfl | (hb | hb) | hb
    · rw [hnode] at hn
      cases hn
      refine ⟨c, hc, rfl, hapart.center, fun x hx => ?_, hapart.head_center⟩
      simp [Tst.addrs, hx]
    · apply hup _ (ihl hl hapart.left hb)
      exact fun x hx => by simp [Tst.addrs, hx]
    · apply hup _ (ihc hc hapart.center hb)
      exact fun x hx => by simp [Tst.addrs, hx]
    · apply hup _ (ihr hr hapart.right hb)
      exact fun x hx => by simp [Tst.addrs, hx]

/-- When the tree has all nodes of the heap, a path stays below its start: the center link at its
end leads to a tree without it. -/
theorem Rep.path (h : Rep T.heap parent t) (hnodup : t.addrs.Nodup)
    (hall : ∀ x < T.heap.length, x ∈ t.addrs) {a b : Nat} {keys : Text} (hpath : Path T a keys b)
    {n : TNode} (hn : T.heap[b]? = some n) :
    ∃ c, Rep T.heap (some b) c ∧ c.head = n.c_ ∧ c.addrs.Nodup ∧ a ∉ c.addrs := by
  induction hpath generalizing n with
  | here =>
    obtain ⟨c, hrep, hhead, hnodup', -, hnot⟩ :=
      h.center hnodup (hall a (List.getElem?_eq_some_iff.mp hn).1) hn
    exact ⟨c, hrep, hhead, hnodup', hnot⟩
  | down hpath hb hc hm ih =>
    obtain ⟨c, hrep, hhead, hnodup', hnot⟩ := ih hb
    obtain ⟨hmem, -⟩ := hrep.onChain (hhead ▸ hc) hm
    obtain ⟨d, hrep', hhead', hnodup'', hsub, -⟩ := hrep.center hnodup' hmem hn
    exact ⟨d, hrep', hhead', hnodup'', fun hd => hnot (hsub hd)⟩

theorem Rep.parentLinks (h : Rep T.heap none t) (hroot : T.root = t.head) (hnodup : t.addrs.Nodup)
    (hall : ∀ x < T.heap.length, x ∈ t.addrs) : ParentLinks T := by
  constructor
  · intro b n hb hn
    exact (h.onChain (hroot ▸ hb) hn).2
  · intro a n b m hn hb hm
    obtain ⟨c, hrep, hhead, -⟩ := h.center hnodup (hall a (List.getElem?_eq_some_iff.mp hn).1) hn
    exact (hrep.onChain (hhead ▸ hb) hm).2

/-- The climb from the end of a path finds its keys. -/
theorem Rep.climbs (h : Rep T.heap parent t) (hnodup : t.addrs.Nodup)
    (hall : ∀ x < T.heap.length, x ∈ t.addrs) {a b : Nat} {keys : Text}
    (hpath : Path T a keys b) : Climbs T a (some b) keys := by
  induction hpath with
  | here => exact climbs_root T a
  | down hpath hb hc hm ih =>
    obtain ⟨c, hrep, hhead, -, hnot⟩ := h.path hnodup hall hpath hb
    obtain ⟨hmem, hparent⟩ := hrep.onChain (hhead ▸ hc) hm
    apply Climbs.node _ hm
    · rintro rfl
      exact hnot hmem
    · rw [hparent]
      exact ih

end

/-! ## Inserted words -/

/-- A tree with as many nodes as the heap has all of them. -/
theorem Built.covers {T : Trie} {t : Tst UInt8} {words : List Text} (h : Built T t words)
    (hfull : t.addrs.length = T.heap.length) : ∀ x < T.heap.length, x ∈ t.addrs := by
  have hsub : t.addrs.Subperm (List.range T.heap.length) :=
    h.nodup.subperm fun x hx => List.mem_range.mpr (addrs_lt h.rep x hx)
  have hperm := hsub.perm_of_length_le (by rw [List.length_range, hfull])
  exact fun x hx => hperm.mem_iff.mpr (List.mem_range.mpr hx)

/-- After any sequence of insertions, the nodes on the chain of the root have no parent, and those
on the chain below a center link have the node with the link. The climb from a node to a node
above it finds the keys of the path between them. -/
theorem the_parents_lead_back_to_where_the_links_came_from {words : List Text}
    (hplain : ∀ w ∈ words, Plain w) (fuel : Nat) (hfuel : (words.map List.length).sum < fuel) :
    ∃ T, Trie.insertAll fuel words .empty = .ok T ∧ ParentLinks T ∧
      ∀ a keys b, Path T a keys b → Climbs T a (some b) keys := by
  obtain ⟨T, t, hrun, hbuilt, hfull⟩ := insertAll_fills (fun w hw => (hplain w hw).storable) hfuel
  have hall := hbuilt.covers hfull
  refine ⟨T, hrun, hbuilt.rep.parentLinks hbuilt.root hbuilt.nodup hall, fun a keys b hpath => ?_⟩
  exact hbuilt.rep.climbs hbuilt.nodup hall hpath

theorem the_parents_lead_back_after_tea_and_ten :
    ∃ T, Trie.insertAll 7 [bytes "tea", bytes "ten"] .empty = .ok T ∧ ParentLinks T ∧
      ∀ a keys b, Path T a keys b → Climbs T a (some b) keys :=
  the_parents_lead_back_to_where_the_links_came_from (by decide +kernel) 7 (by decide)

end anagram
