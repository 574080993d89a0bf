-- The Levenshtein distance as a number of edits. An edit inserts, deletes or
-- substitutes one item. The law: the distance is the least number of edits that
-- turn one list into the other, so it is a metric.
import Anagram.General.EditDistance

namespace edit_distance

variable {α : Type}

/-! ## Edits -/

/-- One edit. -/
inductive Edit : List α → List α → Prop
  | insert (u v : List α) (c : α) : Edit (u ++ v) (u ++ c :: v)
  | delete (u v : List α) (c : α) : Edit (u ++ c :: v) (u ++ v)
  | substitute (u v : List α) (c d : α) : Edit (u ++ c :: v) (u ++ d :: v)

/-- So many edits, one after another. -/
inductive Edits : Nat → List α → List α → Prop
  | none (s : List α) : Edits 0 s s
  | more {n : Nat} {s t u : List α} : Edit s t → Edits n t u → Edits (n + 1) s u

theorem Edit.cons {s t : List α} (h : Edit s t) (c : α) : Edit (c :: s) (c :: t) := by
  cases h with
  | insert u v d => exact .insert (c :: u) v d
  | delete u v d => exact .delete (c :: u) v d
  | substitute u v d e => exact .substitute (c :: u) v d e

theorem Edit.reverse {s t : List α} (h : Edit s t) : Edit s.reverse t.reverse := by
  cases h with
  | insert u v c =>
    simp only [List.reverse_append, List.reverse_cons, List.append_assoc, List.singleton_append]
    exact .insert v.reverse u.reverse c
  | delete u v c =>
    simp only [List.reverse_append, List.reverse_cons, List.append_assoc, List.singleton_append]
    exact .delete v.reverse u.reverse c
  | substitute u v c d =>
    simp only [List.reverse_append, List.reverse_cons, List.append_assoc, List.singleton_append]
    exact .substitute v.reverse u.reverse c d

theorem Edits.cons {n : Nat} {s t : List α} (h : Edits n s t) (c : α) :
    Edits n (c :: s) (c :: t) := by
  induction h with
  | none s => exact .none (c :: s)
  | more hedit _ ih => exact .more (hedit.cons c) ih

theorem Edits.reverse {n : Nat} {s t : List α} (h : Edits n s t) :
    Edits n s.reverse t.reverse := by
  induction h with
  | none s => exact .none s.reverse
  | more hedit _ ih => exact .more hedit.reverse ih

theorem edits_reverse_iff {n : Nat} {s t : List α} :
    Edits n s.reverse t.reverse ↔ Edits n s t := by
  constructor
  · intro h
    have hback := h.reverse
    rwa [List.reverse_reverse, List.reverse_reverse] at hback
  · exact Edits.reverse

theorem Edits.trans {m n : Nat} {s t u : List α} (h : Edits m s t) (h' : Edits n t u) :
    Edits (m + n) s u := by
  induction h with
  | none s =>
    rw [Nat.zero_add]
    exact h'
  | more hedit _ ih =>
    rw [Nat.add_right_comm]
    exact .more hedit (ih h')

/-! ## Alignments -/

/-- The lists side by side from the front on, with this cost: an item of each, the same for free, or
an item of one of them only. -/
inductive Aligned : List α → List α → Nat → Prop
  | nil : Aligned [] [] 0
  | keep {s t : List α} {n : Nat} (a : α) : Aligned s t n → Aligned (a :: s) (a :: t) n
  | change {s t : List α} {n : Nat} (a b : α) : Aligned s t n → Aligned (a :: s) (b :: t) (n + 1)
  | drop {s t : List α} {n : Nat} (a : α) : Aligned s t n → Aligned (a :: s) t (n + 1)
  | add {s t : List α} {n : Nat} (b : α) : Aligned s t n → Aligned s (b :: t) (n + 1)

theorem Aligned.refl (s : List α) : Aligned s s 0 := by
  induction s with
  | nil => exact .nil
  | cons a s ih => exact ih.keep a

theorem Aligned.append_left {s t : List α} {n : Nat} (h : Aligned s t n) (u : List α) :
    Aligned (u ++ s) (u ++ t) n := by
  induction u with
  | nil => exact h
  | cons a u ih => exact ih.keep a

/-- An alignment is a sequence of edits. -/
theorem Aligned.edits {s t : List α} {n : Nat} (h : Aligned s t n) : Edits n s t := by
  induction h with
  | nil => exact .none []
  | keep a _ ih => exact ih.cons a
  | change a b _ ih => exact .more (.substitute [] _ a b) (ih.cons b)
  | drop a _ ih => exact .more (.delete [] _ a) ih
  | @add s t n b _ ih => exact ih.trans (.more (.insert [] t b) (.none _))

theorem Edit.aligned {s t : List α} (h : Edit s t) : Aligned s t 1 := by
  cases h with
  | insert u v c => exact ((Aligned.refl v).add c).append_left u
  | delete u v c => exact ((Aligned.refl v).drop c).append_left u
  | substitute u v c d => exact ((Aligned.refl v).change c d).append_left u

/-- Two alignments make one that costs no more than both. An item of the middle list that only one
of them has is left out. -/
theorem Aligned.trans : ∀ {s t u : List α} {m n : Nat}, Aligned s t m → Aligned t u n →
    ∃ k ≤ m + n, Aligned s u k
  | _, _, _, _, _, .drop a h, h' => by
    obtain ⟨k, hk, halign⟩ := h.trans h'
    exact ⟨k + 1, by omega, halign.drop a⟩
  | _, _, _, _, _, h, .add b h' => by
    obtain ⟨k, hk, halign⟩ := h.trans h'
    exact ⟨k + 1, by omega, halign.add b⟩
  | _, _, _, _, _, .nil, .nil => ⟨0, le_rfl, .nil⟩
  | _, _, _, _, _, .keep a h, .keep _ h' => by
    obtain ⟨k, hk, halign⟩ := h.trans h'
    exact ⟨k, hk, halign.keep a⟩
  | _, _, _, _, _, .keep a h, .change _ b h' => by
    obtain ⟨k, hk, halign⟩ := h.trans h'
    exact ⟨k + 1, by omega, halign.change a b⟩
  | _, _, _, _, _, .change a _ h, .keep b h' => by
    obtain ⟨k, hk, halign⟩ := h.trans h'
    exact ⟨k + 1, by omega, halign.change a b⟩
  | _, _, _, _, _, .change a _ h, .change _ b h' => by
    obtain ⟨k, hk, halign⟩ := h.trans h'
    exact ⟨k + 1, by omega, halign.change a b⟩
  | _, _, _, _, _, .keep a h, .drop _ h' => by
    obtain ⟨k, hk, halign⟩ := h.trans h'
    exact ⟨k + 1, by omega, halign.drop a⟩
  | _, _, _, _, _, .change a _ h, .drop _ h' => by
    obtain ⟨k, hk, halign⟩ := h.trans h'
    exact ⟨k + 1, by omega, halign.drop a⟩
  | _, _, _, _, _, .add _ h, .keep b h' => by
    obtain ⟨k, hk, halign⟩ := h.trans h'
    exact ⟨k + 1, by omega, halign.add b⟩
  | _, _, _, _, _, .add _ h, .change _ b h' => by
    obtain ⟨k, hk, halign⟩ := h.trans h'
    exact ⟨k + 1, by omega, halign.add b⟩
  | _, _, _, _, _, .add _ h, .drop _ h' => by
    obtain ⟨k, hk, halign⟩ := h.trans h'
    exact ⟨k, by omega, halign⟩
termination_by s t u => s.length + t.length + u.length

/-- So a sequence of edits is an alignment that costs no more. -/
theorem Edits.aligned {n : Nat} {s t : List α} (h : Edits n s t) : ∃ k ≤ n, Aligned s t k := by
  induction h with
  | none s => exact ⟨0, le_rfl, .refl s⟩
  | more hedit _ ih =>
    obtain ⟨k, hk, halign⟩ := ih
    obtain ⟨k', hk', halign'⟩ := hedit.aligned.trans halign
    exact ⟨k', by omega, halign'⟩

/-! ## The distance -/

variable [DecidableEq α]

omit [DecidableEq α] in
theorem aligned_nil_left (t : List α) : Aligned [] t t.length := by
  induction t with
  | nil => exact .nil
  | cons b t ih => exact ih.add b

omit [DecidableEq α] in
theorem aligned_nil_right (s : List α) : Aligned s [] s.length := by
  induction s with
  | nil => exact .nil
  | cons a s ih => exact ih.drop a

omit [DecidableEq α] in
theorem reverse_take_succ {s : List α} {i : Nat} (hi : i < s.length) :
    (s.take (i + 1)).reverse = s[i] :: (s.take i).reverse := by
  rw [List.take_succ_eq_append_getElem hi, List.reverse_append]
  rfl

/-- The distance of two prefixes is the cost of an alignment from their ends on. -/
theorem aligned_prefixDistance (s t : List α) {i j : Nat} (hi : i ≤ s.length) (hj : j ≤ t.length) :
    Aligned (s.take i).reverse (t.take j).reverse (prefixDistance s t i j) := by
  induction i generalizing j with
  | zero =>
    have h := aligned_nil_left (t.take j).reverse
    rw [List.length_reverse, List.length_take_of_le hj] at h
    rw [prefixDistance_zero_left]
    exact h
  | succ i ihi =>
    have hlt : i < s.length := hi
    induction j with
    | zero =>
      have h := aligned_nil_right (s.take (i + 1)).reverse
      rw [List.length_reverse, List.length_take_of_le hi] at h
      rw [prefixDistance_zero_right]
      exact h
    | succ j ihj =>
      have hlt' : j < t.length := hj
      have hdrop := (ihi hlt.le hj).drop s[i]
      have hadd := (ihj hlt'.le).add t[j]
      have hboth : Aligned (s[i] :: (s.take i).reverse) (t[j] :: (t.take j).reverse)
          (prefixDistance s t i j + if s[i]? = t[j]? then 0 else 1) := by
        have h := ihi hlt.le hlt'.le
        rw [List.getElem?_eq_getElem hlt, List.getElem?_eq_getElem hlt']
        split_ifs with heq
        · rw [Option.some.inj heq]
          exact h.keep _
        · exact h.change _ _
      rw [reverse_take_succ hlt] at hadd ⊢
      rw [reverse_take_succ hlt'] at hdrop ⊢
      rw [prefixDistance_succ]
      rcases min_choice (min (prefixDistance s t i (j + 1) + 1) (prefixDistance s t (i + 1) j + 1))
        (prefixDistance s t i j + if s[i]? = t[j]? then 0 else 1) with h | h
      · rw [h]
        rcases min_choice (prefixDistance s t i (j + 1) + 1) (prefixDistance s t (i + 1) j + 1)
          with h' | h'
        · rw [h']
          exact hdrop
        · rw [h']
          exact hadd
      · rw [h]
        exact hboth

/-- One more item on a side costs one at most. -/
theorem prefixDistance_succ_le (s t : List α) (i j : Nat) :
    prefixDistance s t i (j + 1) ≤ prefixDistance s t i j + 1 := by
  cases i with
  | zero => simp
  | succ i =>
    rw [prefixDistance_succ]
    exact (min_le_left _ _).trans (min_le_right _ _)

omit [DecidableEq α] in
/-- The last item of a prefix, and the shorter prefix before it. -/
theorem exists_of_reverse_take {s r : List α} {i : Nat} {a : α} (hi : i ≤ s.length)
    (h : (s.take i).reverse = a :: r) :
    ∃ i', i = i' + 1 ∧ s[i']? = some a ∧ (s.take i').reverse = r := by
  cases i with
  | zero => simp at h
  | succ i =>
    rw [reverse_take_succ hi, List.cons.injEq] at h
    exact ⟨i, rfl, by rw [List.getElem?_eq_getElem hi, h.1], h.2⟩

/-- No alignment costs less. -/
theorem Aligned.prefixDistance_le {s t u v : List α} {n : Nat} (h : Aligned u v n) {i j : Nat}
    (hi : i ≤ s.length) (hj : j ≤ t.length) (hu : (s.take i).reverse = u)
    (hv : (t.take j).reverse = v) : prefixDistance s t i j ≤ n := by
  induction h generalizing i j with
  | nil =>
    have hzero : ∀ {w : List α} {k : Nat}, k ≤ w.length → (w.take k).reverse = [] → k = 0 := by
      intro w k hk h
      have hlength := congrArg List.length h
      rwa [List.length_reverse, List.length_take_of_le hk] at hlength
    rw [hzero hi hu, hzero hj hv, prefixDistance_zero_left]
  | keep a _ ih =>
    obtain ⟨i, rfl, hs, hu⟩ := exists_of_reverse_take hi hu
    obtain ⟨j, rfl, ht, hv⟩ := exists_of_reverse_take hj hv
    have hle := ih (Nat.le_of_succ_le hi) (Nat.le_of_succ_le hj) hu hv
    rw [prefixDistance_succ, hs, ht, if_pos rfl]
    exact (min_le_right _ _).trans hle
  | change a b _ ih =>
    obtain ⟨i, rfl, -, hu⟩ := exists_of_reverse_take hi hu
    obtain ⟨j, rfl, -, hv⟩ := exists_of_reverse_take hj hv
    have hle := ih (Nat.le_of_succ_le hi) (Nat.le_of_succ_le hj) hu hv
    rw [prefixDistance_succ]
    apply (min_le_right _ _).trans
    split_ifs <;> omega
  | drop a _ ih =>
    obtain ⟨i, rfl, -, hu⟩ := exists_of_reverse_take hi hu
    have hle := ih (Nat.le_of_succ_le hi) hj hu hv
    have hstep := prefixDistance_succ_le t s j i
    rw [prefixDistance_comm t s, prefixDistance_comm t s] at hstep
    exact hstep.trans (Nat.add_le_add_right hle 1)
  | add b _ ih =>
    obtain ⟨j, rfl, -, hv⟩ := exists_of_reverse_take hj hv
    have hle := ih hi (Nat.le_of_succ_le hj) hu hv
    exact (prefixDistance_succ_le s t i j).trans (Nat.add_le_add_right hle 1)

/-- There are as many edits as the distance that turn one list into the other. -/
theorem edits_levenshtein (s t : List α) : Edits (levenshtein s t) s t := by
  have h := (aligned_prefixDistance s t (le_refl s.length) (le_refl t.length)).edits
  rw [List.take_length, List.take_length, edits_reverse_iff] at h
  exact h

/-- Fewer edits do not do. -/
theorem levenshtein_le_of_edits {s t : List α} {n : Nat} (h : Edits n s t) :
    levenshtein s t ≤ n := by
  obtain ⟨k, hk, halign⟩ := h.reverse.aligned
  apply le_trans _ hk
  apply halign.prefixDistance_le le_rfl le_rfl
  · rw [List.take_length]
  · rw [List.take_length]

theorem levenshtein_triangle (s t u : List α) :
    levenshtein s u ≤ levenshtein s t + levenshtein t u :=
  levenshtein_le_of_edits ((edits_levenshtein s t).trans (edits_levenshtein t u))

omit [DecidableEq α] in
/-- Edits change the length by one at most. -/
theorem Edits.length_le {n : Nat} {s t : List α} (h : Edits n s t) :
    s.length ≤ t.length + n ∧ t.length ≤ s.length + n := by
  induction h with
  | none s => simp
  | more hedit _ ih =>
    cases hedit with
    | insert u v c | delete u v c | substitute u v c d =>
      simp only [List.length_append, List.length_cons] at ih ⊢
      omega

end edit_distance
