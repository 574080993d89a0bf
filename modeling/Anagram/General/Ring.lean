-- A ring of slots with one slot kept free. The first index is that of the
-- oldest item, the next index that of the slot to write. The laws say how the
-- items move when a slot is written or left, and that the two indices tell how
-- many items there are. And the bounded queue that a ring is for.
import Anagram.General.Interleaving

namespace ring

variable {β : Type}

/-- From the slot `first` on, and around the end, the slots hold the items. -/
structure Holds (cap : Nat) (slot : Nat → β → Prop) (first next : Nat) (items : List β) :
    Prop where
  first_lt : first < cap
  length_lt : items.length < cap
  next_eq : next = (first + items.length) % cap
  slots : ∀ k b, items[k]? = some b → slot ((first + k) % cap) b

variable {cap : Nat} {slot slot' : Nat → β → Prop} {first next : Nat} {items : List β} {b : β}

theorem add_mod_ne {k n : Nat} (hk : k < n) (hn : n < cap) (i : Nat) :
    (i + k) % cap ≠ (i + n) % cap := by
  intro h
  have hmod : k ≡ n [MOD cap] := Nat.ModEq.add_left_cancel' i h
  have heq : k = n := by
    rwa [Nat.ModEq, Nat.mod_eq_of_lt (by omega), Nat.mod_eq_of_lt hn] at hmod
  omega

/-- An index that is set back to 0 at the end of the ring. -/
theorem wrap_eq (h : first < cap) :
    (if first + 1 ≥ cap then 0 else first + 1) = (first + 1) % cap := by
  split
  · have hcap : first + 1 = cap := by omega
    rw [hcap, Nat.mod_self]
  · rw [Nat.mod_eq_of_lt (by omega)]

theorem Holds.next_lt (h : Holds cap slot first next items) : next < cap := by
  rw [h.next_eq]
  exact Nat.mod_lt _ (by have := h.first_lt; omega)

theorem holds_nil (h : first < cap) : Holds cap slot first first [] where
  first_lt := h
  length_lt := by rw [List.length_nil]; omega
  next_eq := by rw [List.length_nil, Nat.add_zero, Nat.mod_eq_of_lt h]
  slots k b hk := by simp at hk

/-- The number of items, from the indices. -/
theorem Holds.length_eq (h : Holds cap slot first next items) :
    items.length = if first ≤ next then next - first else next + cap - first := by
  have hfirst := h.first_lt
  have hlen := h.length_lt
  rw [h.next_eq]
  by_cases hwrap : first + items.length < cap
  · rw [Nat.mod_eq_of_lt hwrap, if_pos (by omega)]
    omega
  · have hmod : (first + items.length) % cap = first + items.length - cap := by
      rw [Nat.mod_eq_sub_mod (by omega), Nat.mod_eq_of_lt (by omega)]
    rw [hmod, if_neg (by omega)]
    omega

/-- What is written to the next slot becomes the newest item, if a slot stays free. -/
theorem Holds.push (h : Holds cap slot first next items) (hroom : items.length + 1 < cap)
    (hnew : slot' next b) (hold : ∀ i < cap, i ≠ next → ∀ c, slot i c → slot' i c) :
    Holds cap slot' first ((next + 1) % cap) (items ++ [b]) where
  first_lt := h.first_lt
  length_lt := by simpa using hroom
  next_eq := by
    rw [h.next_eq, List.length_append, List.length_singleton, Nat.mod_add_mod, Nat.add_assoc]
  slots k c hk := by
    have hcap : 0 < cap := by omega
    rcases Nat.lt_trichotomy k items.length with hlt | rfl | hgt
    · rw [List.getElem?_append_left hlt] at hk
      have hne : (first + k) % cap ≠ next := by
        rw [h.next_eq]
        exact add_mod_ne hlt h.length_lt first
      exact hold _ (Nat.mod_lt _ hcap) hne c (h.slots k c hk)
    · rw [List.getElem?_append_right le_rfl, Nat.sub_self] at hk
      cases hk
      rwa [← h.next_eq]
    · rw [List.getElem?_eq_none (by simp; omega)] at hk
      cases hk

/-- The oldest item is in the first slot, and leaving it behind keeps the others. -/
theorem Holds.pop (h : Holds cap slot first next (b :: items)) :
    slot first b ∧ Holds cap slot ((first + 1) % cap) next items := by
  have hfirst := h.first_lt
  have hlen := h.length_lt
  rw [List.length_cons] at hlen
  refine ⟨?_, Nat.mod_lt _ (by omega), by omega, ?_, fun k c hk => ?_⟩
  · have h0 := h.slots 0 b rfl
    rwa [Nat.add_zero, Nat.mod_eq_of_lt hfirst] at h0
  · rw [h.next_eq, List.length_cons, Nat.mod_add_mod]
    congr 1
    omega
  · have hnext := h.slots (k + 1) c (by simpa using hk)
    rwa [Nat.mod_add_mod, Nat.add_assoc, Nat.add_comm 1 k]

/-! ## A bounded queue -/

inductive FifoOp (β : Type)
  | push (b : β)
  | pop
deriving DecidableEq

/-- The items, oldest first, and what the pops so far have given. -/
structure Fifo (β : Type) where
  items : List β
  popped : List (Option β)

/-- A push needs room. A pop takes the oldest item, if there is one. -/
def fifoStep (room : Nat) (q : Fifo β) : FifoOp β → Option (Fifo β)
  | .push b => if q.items.length = room then none else some { q with items := q.items ++ [b] }
  | .pop => some ⟨q.items.tail, q.popped ++ [q.items.head?]⟩

/-- The items that the operations push. -/
def pushes : List (FifoOp β) → List β
  | [] => []
  | .push b :: ops => b :: pushes ops
  | .pop :: ops => pushes ops

theorem fifoStep_conserves {room : Nat} {q q' : Fifo β} {op : FifoOp β}
    (h : fifoStep room q op = some q') :
    q.popped.filterMap id ++ q.items ++ pushes [op] = q'.popped.filterMap id ++ q'.items := by
  cases op with
  | push b =>
    simp only [fifoStep] at h
    split_ifs at h
    cases h
    simp [pushes]
  | pop =>
    cases h
    obtain ⟨items, popped⟩ := q
    cases items <;> simp [pushes]

theorem pushes_cons (op : FifoOp β) (ops : List (FifoOp β)) :
    pushes (op :: ops) = pushes [op] ++ pushes ops := by
  cases op <;> rfl

/-- What was popped and what is left are the items pushed, in their order. -/
theorem fifo_conserves {room : Nat} {ops : List (FifoOp β)} {q q' : Fifo β}
    (h : interleaving.run (fifoStep room) q ops = some q') :
    q.popped.filterMap id ++ q.items ++ pushes ops = q'.popped.filterMap id ++ q'.items := by
  induction ops generalizing q with
  | nil =>
    cases h
    exact List.append_nil _
  | cons op ops ih =>
    obtain ⟨u, hu, hrun⟩ := Option.bind_eq_some_iff.mp h
    rw [← ih hrun, ← fifoStep_conserves hu, pushes_cons, List.append_assoc _ (pushes [op])]

end ring
