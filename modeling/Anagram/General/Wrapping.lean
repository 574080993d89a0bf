-- Counters that wrap round. Each turn adds to the counter of one key. A counter
-- shows zero when it is a multiple of the modulus, whether nothing was added yet or
-- it has wrapped, and the laws count the turns that find it so.
import Mathlib

namespace wrapping

/-! ## One counter -/

/-- How many of `n` additions of `step` to a counter find it at a multiple of `modulus`, when the
counter starts at `start`. -/
def zeros (modulus start step n : Nat) : Nat :=
  ((Finset.range n).filter (fun i => modulus ∣ start + i * step)).card

/-- The first addition comes first. -/
theorem zeros_succ (modulus start step n : Nat) : zeros modulus start step (n + 1) =
    (if modulus ∣ start then 1 else 0) + zeros modulus (start + step) step n := by
  unfold zeros
  rw [Finset.card_filter, Finset.card_filter, Finset.sum_range_succ', add_comm]
  congr 1
  · rw [Nat.zero_mul, Nat.add_zero]
  · apply Finset.sum_congr rfl
    intro i _
    rw [Nat.succ_mul, Nat.add_right_comm, Nat.add_assoc]

/-- From zero and in steps of one, every `modulus` additions find one zero, the first at once. -/
theorem zeros_from_zero {modulus : Nat} (hpos : 0 < modulus) (n : Nat) :
    zeros modulus 0 1 n = (n + (modulus - 1)) / modulus := by
  unfold zeros
  rw [Finset.card_filter]
  induction n with
  | zero => rw [Finset.sum_range_zero, Nat.zero_add, Nat.div_eq_of_lt (by omega)]
  | succ n ih =>
    rw [Finset.sum_range_succ, ih, Nat.add_right_comm, Nat.succ_div, Nat.zero_add, Nat.mul_one]
    have hsum : n + (modulus - 1) + 1 = n + modulus := by omega
    simp only [hsum, Nat.dvd_add_self_right]

/-! ## A table of counters -/

section
variable {κ : Type} [DecidableEq κ] (modulus : Nat) (step : κ → Nat)

/-- The keys of the turns that find their counter at a multiple of the modulus. A turn of the key
`c` adds `step c`. -/
def atZero : List κ → (κ → Nat) → List κ
  | [], _ => []
  | c :: cs, f =>
    (if modulus ∣ f c then [c] else []) ++
      atZero cs (Function.update f c (f c + step c))

theorem mem_of_atZero {cs : List κ} {f : κ → Nat} {c : κ}
    (h : c ∈ atZero modulus step cs f) : c ∈ cs := by
  induction cs generalizing f with
  | nil => cases h
  | cons d cs ih =>
    unfold atZero at h
    rcases List.mem_append.mp h with h | h
    · split_ifs at h
      · exact List.mem_singleton.mp h ▸ List.mem_cons_self
      · cases h
    · exact List.mem_cons_of_mem _ (ih h)

/-- Each key is there as often as its own turns find a zero, in whatever order the turns come. -/
theorem count_atZero (cs : List κ) (f : κ → Nat) (c : κ) :
    (atZero modulus step cs f).count c = zeros modulus (f c) (step c) (cs.count c) := by
  induction cs generalizing f with
  | nil => rfl
  | cons d cs ih =>
    unfold atZero
    rw [List.count_append, ih]
    by_cases hd : d = c
    · subst hd
      rw [Function.update_self, List.count_cons_self, zeros_succ]
      split_ifs <;> simp
    · rw [Function.update_of_ne (Ne.symm hd), List.count_cons_of_ne hd]
      split_ifs <;> simp [hd]

theorem length_atZero (cs : List κ) (f : κ → Nat) : (atZero modulus step cs f).length =
    ∑ c ∈ cs.toFinset, zeros modulus (f c) (step c) (cs.count c) := by
  have hmem : ∀ c ∈ (atZero modulus step cs f : Multiset κ), c ∈ cs.toFinset := fun c hc =>
    List.mem_toFinset.mpr (mem_of_atZero modulus step (Multiset.mem_coe.mp hc))
  rw [← Multiset.coe_card, ← Multiset.sum_count_eq_card hmem]
  apply Finset.sum_congr rfl
  intro c _
  rw [Multiset.coe_count, count_atZero]

end

end wrapping
