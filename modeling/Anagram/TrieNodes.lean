-- The nodes of a trie over its whole life (ternary_tree.cc). `Insert` makes one
-- node for each beginning of a word and no more, `Find` marks the node of the text
-- it is given, and the destructor deletes each node once, after those below it.
import Anagram.TrieWords
import Anagram.General.TriePlaces
import Anagram.General.TrieHeight

open search_trie outcome

namespace anagram

/-! ## The destructor -/

namespace Trie

/-- An access to a node, when some have been deleted. -/
def present (t : Trie) (freed : List Nat) (a : Nat) : Run TNode :=
  if a ∈ freed then .error .undefined else t.node a

/-- `DeleteNode`. The nodes that are deleted stand in the order in which that was done. -/
def deleteNode (t : Trie) (freed : List Nat) (a : Nat) : Run (List Nat) := do
  let _ ← t.present freed a
  .ok (freed ++ [a])

/-- `DeleteTree`. The fuel bounds the depth of the recursion. -/
def deleteTree (t : Trie) : Nat → Option Nat → List Nat → Run (List Nat)
  | 0, _, _ => .error .out_of_fuel
  | _ + 1, none, freed => .ok freed
  | fuel + 1, some a, freed => do
    let freed ← t.deleteTree fuel (← t.present freed a).l_ freed
    let freed ← t.deleteTree fuel (← t.present freed a).c_ freed
    let freed ← t.deleteTree fuel (← t.present freed a).r_ freed
    t.deleteNode freed a

/-- `~TernaryTree`, from `GetRoot`. -/
def destroy (fuel : Nat) (t : Trie) : Run (List Nat) := t.deleteTree fuel t.root []

end Trie

/-- The nodes of a tree, each after its subtrees. -/
def childrenFirst {κ : Type} : Tst κ → List Nat
  | .nil => []
  | .node a _ _ l c r => childrenFirst l ++ childrenFirst c ++ childrenFirst r ++ [a]

theorem childrenFirst_perm {κ : Type} (t : Tst κ) : (childrenFirst t).Perm t.addrs := by
  induction t with
  | nil => exact List.Perm.refl _
  | node a key terminator l c r ihl ihc ihr =>
    rw [childrenFirst, Tst.addrs]
    apply (List.perm_append_comm).trans
    exact ((ihl.append ihc).append ihr).cons a

theorem head_mem_childrenFirst {κ : Type} {t : Tst κ} {b : Nat} (h : t.head = some b) :
    b ∈ childrenFirst t := by
  cases t with
  | nil => cases h
  | node a key terminator l c r =>
    cases h
    simp [childrenFirst]

theorem present_of_notMem {T : Trie} {freed : List Nat} {a : Nat} {n : TNode} (ha : a ∉ freed)
    (hn : T.heap[a]? = some n) : T.present freed a = .ok n := by
  unfold Trie.present
  rw [if_neg ha, Trie.node_eq_ok.mpr hn]

/-- `DeleteTree` deletes the nodes of a tree of which none is deleted yet. -/
theorem deleteTree_frees {T : Trie} {parent : Option Nat} {t : Tst UInt8}
    (hrep : Rep T.heap parent t) (hnodup : t.addrs.Nodup) {freed : List Nat}
    (hfresh : freed.Disjoint t.addrs) {fuel : Nat} (hfuel : t.height < fuel) :
    T.deleteTree fuel t.head freed = .ok (freed ++ childrenFirst t) := by
  induction t generalizing parent freed fuel with
  | nil =>
    obtain ⟨fuel, rfl⟩ := Nat.exists_eq_succ_of_ne_zero (Nat.ne_zero_of_lt hfuel)
    rw [childrenFirst, List.append_nil]
    rfl
  | node a key terminator l c r ihl ihc ihr =>
    obtain ⟨fuel, rfl⟩ := Nat.exists_eq_succ_of_ne_zero (Nat.ne_zero_of_lt hfuel)
    have hapart := Tst.apart_of_nodup hnodup
    obtain ⟨⟨upper, hnode⟩, hl, hc, hr⟩ := hrep
    simp only [Tst.height] at hfuel
    have hout : ∀ x ∈ (Tst.node a key terminator l c r).addrs, x ∉ freed := fun x hx hx' =>
      hfresh hx' hx
    simp only [Tst.addrs, List.mem_cons, List.mem_append] at hout
    have hmem : ∀ (s : Tst UInt8) x, x ∈ childrenFirst s ↔ x ∈ s.addrs := fun s x =>
      (childrenFirst_perm s).mem_iff
    -- the node is read again after each subtree, and is not among what was deleted
    have hlfree : a ∉ freed ++ childrenFirst l := by
      rw [List.mem_append, hmem]
      exact not_or.mpr ⟨hout a (Or.inl rfl), hapart.head_left⟩
    have hcfree : a ∉ freed ++ childrenFirst l ++ childrenFirst c := by
      rw [List.mem_append, hmem]
      exact not_or.mpr ⟨hlfree, hapart.head_center⟩
    have hrfree : a ∉ freed ++ childrenFirst l ++ childrenFirst c ++ childrenFirst r := by
      rw [List.mem_append, hmem]
      exact not_or.mpr ⟨hcfree, hapart.head_right⟩
    have hleft : freed.Disjoint l.addrs := fun x hx hx' => hout x (by simp [hx']) hx
    have hcenter : (freed ++ childrenFirst l).Disjoint c.addrs := by
      intro x hx hx'
      rw [List.mem_append, hmem] at hx
      exact hx.elim (hout x (by simp [hx'])) fun h => hapart.left_center h hx'
    have hright : (freed ++ childrenFirst l ++ childrenFirst c).Disjoint r.addrs := by
      intro x hx hx'
      rw [List.mem_append, List.mem_append, hmem, hmem] at hx
      rcases hx with (hx | hx) | hx
      · exact hout x (by simp [hx']) hx
      · exact hapart.left_right hx hx'
      · exact hapart.center_right hx hx'
    rw [Tst.head_node]
    unfold Trie.deleteTree Trie.deleteNode
    rw [present_of_notMem (hout a (Or.inl rfl)) hnode, bind_ok,
      ihl hl hapart.left hleft (by omega), bind_ok, present_of_notMem hlfree hnode, bind_ok,
      ihc hc hapart.center hcenter (by omega), bind_ok, present_of_notMem hcfree hnode, bind_ok,
      ihr hr hapart.right hright (by omega), bind_ok, present_of_notMem hrfree hnode, bind_ok]
    simp [childrenFirst]

/-- The links of a node lead to nodes that are deleted before it. -/
theorem child_before {T : Trie} {parent : Option Nat} {t : Tst UInt8} (hrep : Rep T.heap parent t)
    {a b : Nat} (ha : a ∈ t.addrs) {n : TNode} (hn : T.heap[a]? = some n)
    (hb : n.l_ = some b ∨ n.c_ = some b ∨ n.r_ = some b) : [b, a].Sublist (childrenFirst t) := by
  induction t generalizing parent with
  | nil => cases ha
  | node d key terminator l c r ihl ihc ihr =>
    obtain ⟨⟨upper, hnode⟩, hl, hc, hr⟩ := hrep
    simp only [Tst.addrs, List.mem_cons, List.mem_append] at ha
    unfold childrenFirst
    rcases ha with rfl | (ha | ha) | ha
    · rw [hnode] at hn
      cases hn
      change ([b] ++ [a]).Sublist _
      apply List.Sublist.append _ (List.Sublist.refl [a])
      rw [List.singleton_sublist, List.mem_append, List.mem_append]
      rcases hb with hb | hb | hb
      · exact Or.inl (Or.inl (head_mem_childrenFirst hb))
      · exact Or.inl (Or.inr (head_mem_childrenFirst hb))
      · exact Or.inr (head_mem_childrenFirst hb)
    · apply (ihl hl ha).trans
      simp only [List.append_assoc]
      exact List.sublist_append_left _ _
    · apply (ihc hc ha).trans
      simp only [List.append_assoc]
      exact (List.sublist_append_left _ _).trans (List.sublist_append_right _ _)
    · apply (ihr hr ha).trans
      rw [List.append_assoc]
      exact (List.sublist_append_left _ _).trans (List.sublist_append_right _ _)

/-- A tree with as many nodes as the heap has every address. -/
theorem addrs_perm_range {T : Trie} {t : Tst UInt8} {words : List Text} (h : Built T t words)
    (hfull : t.addrs.length = T.heap.length) : t.addrs.Perm (List.range T.heap.length) := by
  have hsub := h.nodup.subperm fun x hx => List.mem_range.mpr (addrs_lt h.rep x hx)
  apply hsub.perm_of_length_le
  rw [List.length_range, hfull]

/-- The destructor deletes each node that was ever allocated, and each once. A node is deleted after
those that it has links to, and no node is accessed after it is deleted. -/
theorem the_destructor_frees_each_node_once {words : List Text} (hwords : ∀ w ∈ words, Storable w)
    {fuel : Nat} (hfuel : (words.map List.length).sum < fuel) :
    ∃ T freed, Trie.insertAll fuel words .empty = .ok T ∧ T.destroy fuel = .ok freed ∧
      freed.Perm (List.range T.heap.length) ∧
      ∀ a n b, T.heap[a]? = some n → (n.l_ = some b ∨ n.c_ = some b ∨ n.r_ = some b) →
        [b, a].Sublist freed := by
  obtain ⟨T, t, hinsert, hbuilt, hfull⟩ := insertAll_fills hwords hfuel
  have hperm := addrs_perm_range hbuilt hfull
  refine ⟨T, childrenFirst t, hinsert, ?_, (childrenFirst_perm t).trans hperm, ?_⟩
  · unfold Trie.destroy
    rw [hbuilt.root, deleteTree_frees hbuilt.rep hbuilt.nodup (List.disjoint_nil_left _)
      (((Tst.height_le_size t).trans hbuilt.size).trans_lt hfuel)]
    rfl
  · intro a n b hn hb
    have ha : a ∈ t.addrs := by
      rw [hperm.mem_iff, List.mem_range]
      exact (List.getElem?_eq_some_iff.mp hn).1
    exact child_before hbuilt.rep ha hn hb

theorem the_destructor_frees_the_nodes_of_Ab_and_b :
    ∃ T freed, Trie.insertAll 10 [bytes "Ab", bytes "b"] .empty = .ok T ∧
      T.destroy 10 = .ok freed ∧ freed.Perm (List.range T.heap.length) := by
  have hplain : ∀ w ∈ [bytes "Ab", bytes "b"], Plain w := by decide +kernel
  obtain ⟨T, freed, hinsert, hdestroy, hperm, -⟩ := the_destructor_frees_each_node_once
    (fun w hw => (hplain w hw).storable) (by decide : _ < 10)
  exact ⟨T, freed, hinsert, hdestroy, hperm⟩

/-! ## One node for each beginning -/

/-- The beginnings of the words in lower case, each once. The empty one is not among them. -/
def beginnings (words : List Text) : List Text :=
  ((words.flatMap fun w => (lower w).inits).filter fun p => p ≠ []).dedup

theorem mem_beginnings {words : List Text} {p : Text} :
    p ∈ beginnings words ↔ p ≠ [] ∧ ∃ x, Stored words x ∧ p <+: x := by
  unfold beginnings
  simp only [List.mem_dedup, List.mem_filter, List.mem_flatMap, List.mem_inits, Stored,
    decide_eq_true_eq]
  constructor
  · rintro ⟨⟨w, hw, hp⟩, hne⟩
    exact ⟨hne, lower w, ⟨w, hw, rfl⟩, hp⟩
  · rintro ⟨hne, -, ⟨w, hw, rfl⟩, hp⟩
    exact ⟨⟨w, hw, hp⟩, hne⟩

/-- The node where the search for a text ends. -/
def nodeOf (t : Tst UInt8) : Text → Option Nat
  | [] => none
  | d :: v => (t.stem d v).head

section
variable {T : Trie} {t : Tst UInt8} {words : List Text} (h : Built T t words)
include h

theorem Built.mem_places {p : Text} {a : Nat} : (p, a) ∈ t.places ↔ nodeOf t p = some a := by
  cases p with
  | nil => simp [nodeOf, Tst.nil_notMem_places]
  | cons d v => exact Tst.mem_places h.ordered

/-- The nodes are at the beginnings of the words. -/
theorem Built.place_iff {p : Text} : p ∈ t.places.map Prod.fst ↔ p ∈ beginnings words := by
  rw [mem_beginnings]
  cases p with
  | nil =>
    simp only [ne_eq, not_true_eq_false, false_and, iff_false, List.mem_map, Prod.exists]
    rintro ⟨-, a, hmem, rfl⟩
    exact Tst.nil_notMem_places t a hmem
  | cons d v =>
    rw [Tst.exists_place_iff h.ordered h.live]
    simp only [h.finds, ne_eq, List.cons_ne_nil, not_false_eq_true, true_and]
    constructor
    · rintro ⟨w, hw⟩
      exact ⟨_, hw, List.prefix_append (d :: v) w⟩
    · rintro ⟨x, hx, w, rfl⟩
      exact ⟨w, hx⟩

theorem Built.nodeOf_isSome {p : Text} : (nodeOf t p).isSome ↔ p ∈ beginnings words := by
  rw [← h.place_iff, List.mem_map, Option.isSome_iff_exists]
  constructor
  · rintro ⟨a, ha⟩
    exact ⟨(p, a), h.mem_places.mpr ha, rfl⟩
  · rintro ⟨⟨p, a⟩, hmem, rfl⟩
    exact ⟨a, h.mem_places.mp hmem⟩

/-- The nodes of the beginnings are all nodes of the tree, each once. -/
theorem Built.map_nodeOf : ((beginnings words).map fun p => (nodeOf t p).getD 0).Perm t.addrs := by
  have hperm : (beginnings words).Perm (t.places.map Prod.fst) := by
    apply (List.perm_ext_iff_of_nodup (List.nodup_dedup _)
      (Tst.nodup_places h.ordered h.nodup)).mpr
    exact fun p => h.place_iff.symm
  apply (hperm.map _).trans
  rw [← Tst.map_snd_places, List.map_map]
  apply List.Perm.of_eq
  apply List.map_congr_left
  rintro ⟨p, a⟩ hmem
  simp [h.mem_places.mp hmem]

end

/-- A trie has one node for each beginning of a word, in lower case, and no other, however often and
in whatever order the words come. `Find` marks a node exactly when the text is a beginning, and
finds it when it is a word. Different beginnings have different nodes. -/
theorem the_trie_has_one_node_for_each_beginning {words : List Text}
    (hplain : ∀ w ∈ words, Plain w) {fuel : Nat} (hfuel : (words.map List.length).sum < fuel) :
    ∃ T node, Trie.insertAll fuel words .empty = .ok T ∧
      (∀ q, Plain q → T.find fuel (c_str q) T.root = .ok (decide (q ∈ words.map lower),
        if q ∈ beginnings words then some (node q) else none)) ∧
      ((beginnings words).map node).Perm (List.range T.heap.length) := by
  obtain ⟨T, t, hinsert, hbuilt, hfull⟩ :=
    insertAll_fills (fun w hw => (hplain w hw).storable) hfuel
  refine ⟨T, fun p => (nodeOf t p).getD 0, hinsert, ?_,
    hbuilt.map_nodeOf.trans (addrs_perm_range hbuilt hfull)⟩
  rintro q ⟨hne, hascii⟩
  have hsome := hbuilt.nodeOf_isSome (p := q)
  cases q with
  | nil => exact absurd rfl hne
  | cons d v =>
    rw [c_str, hbuilt.root, find_refines hbuilt.rep hascii (hbuilt.size.trans_lt hfuel)]
    congr 2
    · rw [Bool.eq_iff_iff, decide_eq_true_eq, hbuilt.finds, List.mem_map]
      simp only [Stored, eq_comm]
    · change nodeOf t (d :: v) = _
      split_ifs with hin
      · obtain ⟨a, ha⟩ := Option.isSome_iff_exists.mp (hsome.mpr hin)
        simp [ha]
      · rw [← hsome, Option.not_isSome_iff_eq_none] at hin
        exact hin

theorem the_trie_of_Ab_a_and_b_has_three_nodes :
    ∃ T, Trie.insertAll 10 [bytes "Ab", bytes "a", bytes "b"] .empty = .ok T ∧
      T.heap.length = 3 := by
  have hplain : ∀ w ∈ [bytes "Ab", bytes "a", bytes "b"], Plain w := by decide +kernel
  obtain ⟨T, node, hinsert, -, hperm⟩ :=
    the_trie_has_one_node_for_each_beginning hplain (by decide : _ < 10)
  have hlength := hperm.length_eq
  rw [List.length_map, List.length_range] at hlength
  exact ⟨T, hinsert, hlength.symm.trans (by decide +kernel)⟩

end anagram
