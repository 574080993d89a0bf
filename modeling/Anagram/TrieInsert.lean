-- `Insert` on a tree in the heap. One call reaches the node to insert at and
-- sets the parent of the child it came back from, so the tree below a slot
-- becomes the tree with the word, and the rest of the heap stays.
import Anagram.TrieShape

open search_trie outcome

namespace anagram

/-! ## What a call does to the heap -/

/-- The heap goes from one with the tree `t` to one with the tree `t'`. Only the nodes of the
tree change, and new nodes get new addresses. -/
structure Grown (T : Trie) (parent : Option Nat) (t t' : Tst UInt8) (T' : Trie) : Prop where
  rep : Rep T'.heap parent t'
  frame : ∀ x < T.heap.length, x ∉ t.addrs → T'.heap[x]? = T.heap[x]?
  root : T'.root = T.root
  fresh : ∀ x ∈ t'.addrs, x ∈ t.addrs ∨ T.heap.length ≤ x
  size : T'.heap.length + t.addrs.length = T.heap.length + t'.addrs.length

theorem Grown.load {T T' : Trie} {parent : Option Nat} {t t' : Tst UInt8}
    (h : Grown T parent t t' T') {slot : Slot} {p : Option Nat} (hload : T.load slot = .ok p)
    (howner : ∀ a ∈ slot.owner, a ∉ t.addrs) : T'.load slot = .ok p := by
  rw [← hload]
  apply Trie.load_congr (fun _ => h.root)
  intro a ha
  exact h.frame a (Trie.owner_lt hload a ha) (howner a ha)

/-- `SetParent` of the head, after a call that gave the tree a head without a parent. Such a
head has no left and no right child yet. -/
theorem Grown.setParent {T T' : Trie} {parent' : Option Nat} {t t' : Tst UInt8}
    (h : Grown T parent' t t' T') {b : Nat} (hb : t'.head = some b) (hnodup : t'.addrs.Nodup)
    (parent : Option Nat) (hparent : parent' = parent ∨ ∃ fresh k w, t' = .chain fresh k w) :
    ∃ T'', T'.setParent (some b) parent = .ok T'' ∧ Grown T parent t t' T'' := by
  cases t' with
  | nil => cases hb
  | node b' key terminator l c r =>
    cases hb
    obtain ⟨⟨⟨upper, hnode⟩, hl, hc, hr⟩, hframe, hroot, hfresh, hsize⟩ := h
    refine ⟨T'.modify b fun n => { n with parent_ := parent }, ?_, ?_⟩
    · unfold Trie.setParent
      simp only [Trie.node_eq_ok.mpr hnode, bind_ok]
    have hmem : b ∈ (Tst.node b key terminator l c r).addrs := List.mem_cons_self
    have hother : ∀ x, x ≠ b →
        (T'.modify b fun n => { n with parent_ := parent }).heap[x]? = T'.heap[x]? :=
      fun x hx => Trie.modify_ne T' _ hx
    have hne : ∀ x ∈ l.addrs ++ c.addrs ++ r.addrs, x ≠ b := by
      rintro x hx rfl
      exact (List.nodup_cons.mp hnodup).1 hx
    refine ⟨⟨⟨upper, by simp [Trie.modify_self, hnode]⟩, ?_, ?_, ?_⟩, ?_, hroot, hfresh,
      by simpa using hsize⟩
    · rcases hparent with rfl | ⟨fresh, k, w, hchain⟩
      · exact hl.frame fun x hx => hother x (hne x (by simp [hx]))
      · cases w <;> cases hchain <;> trivial
    · exact hc.frame fun x hx => hother x (hne x (by simp [hx]))
    · rcases hparent with rfl | ⟨fresh, k, w, hchain⟩
      · exact hr.frame fun x hx => hother x (hne x (by simp [hx]))
      · cases w <;> cases hchain <;> trivial
    · intro x hx hxt
      rw [hother x, hframe x hx hxt]
      rintro rfl
      rcases hfresh x hmem with h | h
      · exact hxt h
      · omega

/-- A call for a child of `a` changes `a` and the nodes below the child. -/
theorem Grown.frame_of_child {T T' : Trie} {q : Option Nat} {s s' : Tst UInt8} {side : Slot}
    {a x : Nat} (h : Grown (T.store s'.head side) q s s' T') (howner : side.owner = some a)
    (hx : x < T.heap.length) (hne : x ≠ a) (hmem : x ∉ s.addrs) : T'.heap[x]? = T.heap[x]? := by
  rw [h.frame x (by simpa using hx) hmem]
  apply Trie.store_ne
  rw [howner]
  exact fun e => hne (Option.some.inj e).symm

theorem Grown.fresh_of_child {T T' : Trie} {q : Option Nat} {s s' : Tst UInt8} {side : Slot}
    {x : Nat} (h : Grown (T.store s'.head side) q s s' T') (hx : x ∈ s'.addrs) :
    x ∈ s.addrs ∨ T.heap.length ≤ x := by
  have hfresh := h.fresh x hx
  rwa [Trie.length_store] at hfresh

theorem Grown.root_of_child {T T' : Trie} {q : Option Nat} {s s' : Tst UInt8} {side : Slot}
    {a : Nat} (h : Grown (T.store s'.head side) q s s' T') (howner : side.owner = some a) :
    T'.root = T.root := by
  rw [h.root]
  cases side with
  | root => cases howner
  | left | center | right => rfl

theorem Grown.size_of_child {T T' : Trie} {q : Option Nat} {s s' : Tst UInt8} {side : Slot}
    (h : Grown (T.store s'.head side) q s s' T') :
    T'.heap.length + s.addrs.length = T.heap.length + s'.addrs.length := by
  simpa using h.size

/-- A call for a child of `a` keeps each tree apart from `a` and from the child. -/
theorem Grown.keeps {T T' : Trie} {p q : Option Nat} {s s' u : Tst UInt8} {side : Slot} {a : Nat}
    (h : Grown (T.store s'.head side) q s s' T') (howner : side.owner = some a)
    (hrep : Rep T.heap p u) (ha : a ∉ u.addrs) (hapart : u.addrs.Disjoint s.addrs) :
    Rep T'.heap p u := by
  apply hrep.frame
  intro x hx
  apply h.frame_of_child howner (addrs_lt hrep x hx)
  · rintro rfl
    exact ha hx
  · exact fun hs => hapart hx hs

/-- After a call for a child of `a`, the tree has grown when it is that of the child in the place of
the child before. -/
theorem Grown.of_child {T T' : Trie} {parent q : Option Nat} {t t' s s' : Tst UInt8} {side : Slot}
    {a : Nat} (h : Grown (T.store s'.head side) q s s' T') (howner : side.owner = some a)
    (hrep : Rep T'.heap parent t') (ha : a ∈ t.addrs) (hsub : s.addrs ⊆ t.addrs)
    (hnew : ∀ x ∈ t'.addrs, x ∈ t.addrs ∨ x ∈ s'.addrs)
    (hlength : t'.addrs.length + s.addrs.length = t.addrs.length + s'.addrs.length) :
    Grown T parent t t' T' := by
  refine ⟨hrep, fun x hx hmem => ?_, h.root_of_child howner, fun x hx => ?_, ?_⟩
  · apply h.frame_of_child howner hx
    · rintro rfl
      exact hmem ha
    · exact fun hs => hmem (hsub hs)
  · rcases hnew x hx with hx | hx
    · exact Or.inl hx
    · exact (h.fresh_of_child hx).imp_left fun hs => hsub hs
  · have hsize := h.size_of_child
    omega

section
variable {T T' : Trie} {parent : Option Nat} {a : Nat} {key : UInt8} {terminator : Bool}
  {l c r : Tst UInt8}

theorem Grown.left (hrep : Rep T.heap parent (.node a key terminator l c r))
    (hapart : Tst.Apart a l c r) {l' : Tst UInt8}
    (h : Grown (T.store l'.head (.left a)) parent l l' T') :
    Grown T parent (.node a key terminator l c r) (.node a key terminator l' c r) T' := by
  have ha : a < T.heap.length := addrs_lt hrep a List.mem_cons_self
  obtain ⟨⟨upper, hnode⟩, -, hc, hr⟩ := hrep
  refine h.of_child rfl ⟨⟨upper, ?_⟩, h.rep, ?_, ?_⟩ List.mem_cons_self ?_ ?_ ?_
  · rw [h.frame a (by simpa using ha) hapart.head_left]
    simp [Trie.store, Trie.modify_self, hnode]
  · exact h.keeps rfl hc hapart.head_center hapart.left_center.symm
  · exact h.keeps rfl hr hapart.head_right hapart.left_right.symm
  · intro x hx
    simp [Tst.addrs, hx]
  · intro x hx
    simp only [Tst.addrs, List.mem_cons, List.mem_append] at hx ⊢
    tauto
  · simp only [Tst.addrs, List.length_cons, List.length_append]
    omega

theorem Grown.center (hrep : Rep T.heap parent (.node a key terminator l c r))
    (hapart : Tst.Apart a l c r) {c' : Tst UInt8}
    (h : Grown (T.store c'.head (.center a)) (some a) c c' T') :
    Grown T parent (.node a key terminator l c r) (.node a key terminator l c' r) T' := by
  have ha : a < T.heap.length := addrs_lt hrep a List.mem_cons_self
  obtain ⟨⟨upper, hnode⟩, hl, -, hr⟩ := hrep
  refine h.of_child rfl ⟨⟨upper, ?_⟩, ?_, h.rep, ?_⟩ List.mem_cons_self ?_ ?_ ?_
  · rw [h.frame a (by simpa using ha) hapart.head_center]
    simp [Trie.store, Trie.modify_self, hnode]
  · exact h.keeps rfl hl hapart.head_left hapart.left_center
  · exact h.keeps rfl hr hapart.head_right hapart.center_right.symm
  · intro x hx
    simp [Tst.addrs, hx]
  · intro x hx
    simp only [Tst.addrs, List.mem_cons, List.mem_append] at hx ⊢
    tauto
  · simp only [Tst.addrs, List.length_cons, List.length_append]
    omega

theorem Grown.right (hrep : Rep T.heap parent (.node a key terminator l c r))
    (hapart : Tst.Apart a l c r) {r' : Tst UInt8}
    (h : Grown (T.store r'.head (.right a)) parent r r' T') :
    Grown T parent (.node a key terminator l c r) (.node a key terminator l c r') T' := by
  have ha : a < T.heap.length := addrs_lt hrep a List.mem_cons_self
  obtain ⟨⟨upper, hnode⟩, hl, hc, -⟩ := hrep
  refine h.of_child rfl ⟨⟨upper, ?_⟩, ?_, ?_, h.rep⟩ List.mem_cons_self ?_ ?_ ?_
  · rw [h.frame a (by simpa using ha) hapart.head_right]
    simp [Trie.store, Trie.modify_self, hnode]
  · exact h.keeps rfl hl hapart.head_left hapart.left_right
  · exact h.keeps rfl hc hapart.head_center hapart.center_right
  · intro x hx
    simp [Tst.addrs, hx]
  · intro x hx
    simp only [Tst.addrs, List.mem_cons, List.mem_append] at hx ⊢
    tauto
  · simp only [Tst.addrs, List.length_cons, List.length_append]
    omega

/-- `SetTerminator` -/
theorem Grown.setTerminator (hrep : Rep T.heap parent (.node a key terminator l c r))
    (hapart : Tst.Apart a l c r) :
    Grown T parent (.node a key terminator l c r) (.node a key true l c r)
      (T.modify a fun n => { n with terminator_ := true }) := by
  obtain ⟨⟨upper, hnode⟩, hl, hc, hr⟩ := hrep
  have hkeep : ∀ {p u}, Rep T.heap p u → a ∉ u.addrs →
      Rep (T.modify a fun n => { n with terminator_ := true }).heap p u := by
    intro p u hu ha
    apply hu.frame
    intro x hx
    exact Trie.modify_ne T _ fun e => ha (e ▸ hx)
  refine ⟨⟨⟨upper, by simp [Trie.modify_self, hnode]⟩, hkeep hl hapart.head_left,
    hkeep hc hapart.head_center, hkeep hr hapart.head_right⟩, fun x hx hmem => ?_, rfl,
    fun x hx => Or.inl hx, by simp [Tst.addrs]⟩
  exact Trie.modify_ne T _ fun e => hmem (by simp [Tst.addrs, e])

end

/-! ## The calls -/

/-- What `Insert` can take: no byte ends the string early, and none is `EOF` as a char. -/
def Insertable (w : Text) : Prop := ∀ c ∈ w, c ≠ 0 ∧ c ≠ 255

theorem Ascii.insertable {w : Text} (h : Ascii w) : Insertable w := by
  intro c hc
  obtain ⟨hpos, hlt⟩ := h c hc
  refine ⟨hpos.ne', ?_⟩
  rintro rfl
  exact absurd hlt (by decide)

theorem tolowerChar_of_ne {c : UInt8} (h : c ≠ 255) : tolowerChar c = (tolower c).toNat := if_neg h

/-- The tree of a word inserted, in lower case. -/
def grow (T : Trie) (t : Tst UInt8) (c : UInt8) (rest : Text) : Tst UInt8 :=
  t.ins T.heap.length (tolower c) (rest.map tolower)

/-- What is asked of the calls below one: on every tree and word that together are small enough,
a call returns the head of the tree with the word. A head that is new has no parent. -/
def Inserts (insert : List UInt8 → Slot → Trie → Run (Nat × Trie)) (size : Nat) : Prop :=
  ∀ (T : Trie) (slot : Slot) (parent : Option Nat) (t : Tst UInt8) (c : UInt8) (rest : Text),
    Rep T.heap parent t → t.addrs.Nodup → T.load slot = .ok t.head →
    (∀ x ∈ slot.owner, x ∉ t.addrs) → Insertable (c :: rest) →
    t.addrs.length + rest.length < size →
    ∃ b T', insert (c :: rest ++ [0]) slot T = .ok (b, T') ∧ (grow T t c rest).head = some b ∧
      Grown (T.store (grow T t c rest).head slot) (if t.head = none then none else parent) t
        (grow T t c rest) T'

/-- A call for a child of the node `a`, and the `SetParent` after it. The slot that led to `a`
still does, and the pointer to the child is the head of its tree. -/
theorem insert_child {insert : List UInt8 → Slot → Trie → Run (Nat × Trie)} {size : Nat}
    (hins : Inserts insert size) {T : Trie} {slot side : Slot} {a : Nat} {q : Option Nat}
    {s : Tst UInt8} {d : UInt8} {rest : Text} (hslot : T.load slot = .ok (some a))
    (howner : ∀ x ∈ slot.owner, x ≠ a ∧ x ∉ s.addrs) (hside : side.owner = some a)
    (hload : T.load side = .ok s.head) (hrep : Rep T.heap q s) (hnodup : s.addrs.Nodup)
    (ha : a ∉ s.addrs) (hbytes : Insertable (d :: rest))
    (hsize : s.addrs.length + rest.length < size) :
    ∃ b T₁ T₂, insert (d :: rest ++ [0]) side T = .ok (b, T₁) ∧ T₁.load slot = .ok (some a) ∧
      T₁.heap[a]? = (T.store (some b) side).heap[a]? ∧ T₁.setParent (some b) q = .ok T₂ ∧
      Grown (T.store (grow T s d rest).head side) q s (grow T s d rest) T₂ := by
  have halt : a < T.heap.length := Trie.owner_lt hload a hside
  obtain ⟨b, T₁, hcall, hhead, hgrown⟩ := hins T side q s d rest hrep hnodup hload
    (fun x hx => by rw [hside] at hx; cases hx; exact ha) hbytes hsize
  have hnodup' : (grow T s d rest).addrs.Nodup := Tst.nodup_addrs_ins hnodup (addrs_lt hrep) _ _
  have hkept : (T.store (grow T s d rest).head side).load slot = .ok (some a) := by
    rw [← hslot]
    apply Trie.load_congr
    · intro _
      cases side with
      | root => cases hside
      | left | center | right => rfl
    · intro x hx
      apply Trie.store_ne
      rw [hside]
      exact fun e => (howner x hx).1 (Option.some.inj e).symm
  obtain ⟨T₂, hset, hgrown'⟩ := hgrown.setParent hhead hnodup' q (by
    cases s with
    | nil => exact Or.inr ⟨_, _, _, rfl⟩
    | node => exact Or.inl rfl)
  refine ⟨b, T₁, T₂, hcall, hgrown.load hkept fun x hx => (howner x hx).2, ?_, hset, hgrown'⟩
  rw [hgrown.frame a (by simpa using halt) ha, hhead]

theorem deref_eq_ok {T : Trie} {slot : Slot} {a : Nat} (h : T.load slot = .ok (some a)) :
    T.deref slot = .ok a := by
  unfold Trie.deref
  rw [h]
  rfl

theorem insertAt_grown {insert : List UInt8 → Slot → Trie → Run (Nat × Trie)} {size : Nat}
    (hins : Inserts insert size) {T : Trie} {slot : Slot} {parent : Option Nat} {a : Nat}
    {key : UInt8} {terminator : Bool} {l c r : Tst UInt8} {d : UInt8} {rest : Text}
    (hslot : T.load slot = .ok (some a))
    (howner : ∀ x ∈ slot.owner, x ∉ (Tst.node a key terminator l c r).addrs)
    (hrep : Rep T.heap parent (.node a key terminator l c r))
    (hnodup : (Tst.node a key terminator l c r).addrs.Nodup) (hbytes : Insertable (d :: rest))
    (hside : tolower d ≠ key → l.addrs.length + r.addrs.length + rest.length < size)
    (hcenter : c.addrs.length + rest.length < size + 1) :
    ∃ T', Trie.insertAt insert (d :: rest ++ [0]) d slot T = .ok T' ∧ T'.load slot = .ok (some a) ∧
      Grown T parent (.node a key terminator l c r)
        (grow T (.node a key terminator l c r) d rest) T' := by
  have hapart := Tst.apart_of_nodup hnodup
  have hwhole := hrep
  obtain ⟨⟨upper, hnode⟩, hl, hc, hr⟩ := hrep
  have hslots := howner
  simp only [Tst.addrs, List.mem_cons, List.mem_append, not_or] at hslots
  have hd : tolowerChar d = (tolower d).toNat := tolowerChar_of_ne (hbytes d (by simp)).2
  unfold Trie.insertAt
  rw [deref_eq_ok hslot]
  simp only [bind_ok, Trie.node_eq_ok.mpr hnode, hd, Nat.cast_lt, gt_iff_lt,
    ← UInt8.lt_iff_toNat_lt]
  unfold grow Tst.ins
  split_ifs with hlt hgt
  · -- to the left
    have hload := Trie.load_left hnode
    obtain ⟨b, T₁, T₂, hcall, hslot₁, hnode₁, hset, hgrown⟩ := insert_child hins hslot
      (fun x hx => ⟨(hslots x hx).1, (hslots x hx).2.1.1⟩) rfl hload hl hapart.left
      hapart.head_left hbytes
      (by have h := hside hlt.ne; omega)
    rw [Trie.store, Trie.modify_self, hnode] at hnode₁
    have hgrown' := Grown.left hwhole hapart hgrown
    refine ⟨T₂, ?_, hgrown'.load hslot howner, hgrown'⟩
    rw [hcall]
    simp only [bind_ok, deref_eq_ok hslot₁, Trie.node_eq_ok.mpr hnode₁]
    exact hset
  · -- to the right
    have hload := Trie.load_right hnode
    obtain ⟨b, T₁, T₂, hcall, hslot₁, hnode₁, hset, hgrown⟩ := insert_child hins hslot
      (fun x hx => ⟨(hslots x hx).1, (hslots x hx).2.2⟩) rfl hload hr hapart.right
      hapart.head_right hbytes
      (by have h := hside hgt.ne'; omega)
    rw [Trie.store, Trie.modify_self, hnode] at hnode₁
    have hgrown' := Grown.right hwhole hapart hgrown
    refine ⟨T₂, ?_, hgrown'.load hslot howner, hgrown'⟩
    rw [hcall]
    simp only [bind_ok, deref_eq_ok hslot₁, Trie.node_eq_ok.mpr hnode₁]
    exact hset
  · cases rest with
    | nil =>
      -- the last letter
      have hgrown' := Grown.setTerminator hwhole hapart
      exact ⟨_, rfl, hgrown'.load hslot howner, hgrown'⟩
    | cons e rest =>
      have he : e ≠ 0 := (hbytes e (by simp)).1
      have hload := Trie.load_center hnode
      obtain ⟨b, T₁, T₂, hcall, hslot₁, -, hset, hgrown⟩ := insert_child hins hslot
        (fun x hx => ⟨(hslots x hx).1, (hslots x hx).2.1.2⟩) rfl hload hc hapart.center
        hapart.head_center
        (fun x hx => hbytes x (List.mem_cons_of_mem _ hx))
        (by simp only [List.length_cons] at hcenter; omega)
      have hgrown' := Grown.center hwhole hapart hgrown
      refine ⟨T₂, ?_, hgrown'.load hslot howner, hgrown'⟩
      rw [charAt_second, bind_ok, if_pos he]
      simp only [List.cons_append, List.drop_succ_cons, List.drop_zero]
      rw [← List.cons_append, hcall]
      simp only [bind_ok, deref_eq_ok hslot₁]
      exact hset

/-- At a slot without a tree, the call starts with a new node. -/
theorem ensureNode_nil {T : Trie} {slot : Slot} (hload : T.load slot = .ok none) (c : UInt8) :
    ∃ T₁, T.ensureNode c slot = .ok T₁ ∧ T₁.load slot = .ok (some T.heap.length) ∧
      Rep T₁.heap none (.node T.heap.length (tolower c) false .nil .nil .nil) ∧
      T₁.heap.length = T.heap.length + 1 ∧
      (∀ x < T.heap.length,
        T₁.heap[x]? = (T.store (some T.heap.length) slot).heap[x]?) ∧
      T₁.root = (T.store (some T.heap.length) slot).root := by
  have howner := Trie.owner_lt hload
  refine ⟨(T.allocNode c).2.store (some T.heap.length) slot, ?_, ?_,
    ⟨⟨isupper c, ?_⟩, trivial, trivial, trivial⟩, ?_,
    fun x hx => Trie.store_allocNode T c _ slot hx, ?_⟩
  · unfold Trie.ensureNode
    rw [hload]
    rfl
  · apply Trie.load_store
    intro a ha
    have h := howner a ha
    simp only [Trie.allocNode, List.length_append]
    omega
  · rw [Trie.store_ne]
    · simp [Trie.allocNode, Trie.newNode]
    · intro ha
      exact absurd (howner _ ha) (lt_irrefl _)
  · simp [Trie.allocNode]
  · cases slot <;> rfl

/-- `Insert` grows the tree by the word. -/
theorem insert_inserts (fuel : Nat) : Inserts (Trie.insert fuel) fuel := by
  induction fuel with
  | zero => intro T slot parent t c rest _ _ _ _ _ h; exact absurd h (Nat.not_lt_zero _)
  | succ fuel ih =>
    intro T slot parent t c rest hrep hnodup hload howner hbytes hsize
    unfold Trie.insert
    rw [charAt_head, bind_ok]
    cases t with
    | nil =>
      obtain ⟨T₁, hensure, hslot, hleaf, hlen, hsame, hroot⟩ := ensureNode_nil hload c
      have hout : ∀ x ∈ slot.owner,
          x ∉ (Tst.node T.heap.length (tolower c) false .nil .nil .nil).addrs := by
        intro x hx hmem
        have hlt := Trie.owner_lt hload x hx
        rw [List.mem_singleton.mp hmem] at hlt
        exact lt_irrefl _ hlt
      obtain ⟨T', hat, hload', hgrown⟩ := insertAt_grown ih hslot hout hleaf
        (List.nodup_singleton _) hbytes (fun hne => absurd rfl hne) hsize
      rw [grow, hlen, Tst.ins_leaf] at hgrown
      have hhead : (grow T .nil c rest).head = some T.heap.length := Tst.head_chain _ _ _
      refine ⟨T.heap.length, T', ?_, hhead, hgrown.rep, fun x hx _ => ?_, ?_, fun x hx => ?_, ?_⟩
      · rw [hensure, bind_ok, hat, bind_ok, deref_eq_ok hload']
        rfl
      · rw [Trie.length_store] at hx
        rw [hhead, ← hsame x hx]
        apply hgrown.frame x (by omega)
        exact fun hmem => hx.ne (List.mem_singleton.mp hmem)
      · rw [hhead, ← hroot]
        exact hgrown.root
      · rw [grow, Tst.ins, Tst.addrs_chain, List.mem_range'_1] at hx
        rw [Trie.length_store]
        exact Or.inr hx.1
      · have hsize := hgrown.size
        simp only [Tst.addrs, List.length_cons, List.length_nil, List.append_nil, hlen] at hsize
        rw [Trie.length_store]
        simp only [grow, Tst.ins, Tst.addrs, List.length_nil] at hsize ⊢
        omega
    | node a key terminator l c' r =>
      simp only [Tst.addrs, List.length_cons, List.length_append] at hsize
      obtain ⟨T', hat, hload', hgrown⟩ := insertAt_grown ih hload howner hrep hnodup hbytes
        (fun _ => by omega) (by omega)
      have hhead : (grow T (.node a key terminator l c' r) c rest).head = some a :=
        Tst.head_ins_node a key terminator l c' r _ _ _
      refine ⟨a, T', ?_, hhead, ?_⟩
      · rw [Trie.ensureNode_node hload, bind_ok, hat, bind_ok, deref_eq_ok hload']
        rfl
      · rw [hhead, Trie.store_load (Tst.head_node .. ▸ hload)]
        exact hgrown

end anagram
