-- The Levenshtein distance of two lists, by the recursion on their prefixes: the
-- least number of insertions, deletions and substitutions of one item.
import Mathlib

namespace edit_distance

variable {α : Type} [DecidableEq α]

/-- The distance between the first `i` items of `s` and the first `j` items of `t`. -/
def prefixDistance (s t : List α) : Nat → Nat → Nat
  | 0, j => j
  | i + 1, 0 => i + 1
  | i + 1, j + 1 =>
    min (min (prefixDistance s t i (j + 1) + 1) (prefixDistance s t (i + 1) j + 1))
      (prefixDistance s t i j + if s[i]? = t[j]? then 0 else 1)
termination_by i j => i + j

def levenshtein (s t : List α) : Nat := prefixDistance s t s.length t.length

@[simp] theorem prefixDistance_zero_left (s t : List α) (j : Nat) : prefixDistance s t 0 j = j := by
  unfold prefixDistance
  rfl

@[simp] theorem prefixDistance_zero_right (s t : List α) (i : Nat) :
    prefixDistance s t i 0 = i := by
  unfold prefixDistance
  cases i <;> rfl

theorem prefixDistance_succ (s t : List α) (i j : Nat) :
    prefixDistance s t (i + 1) (j + 1) =
      min (min (prefixDistance s t i (j + 1) + 1) (prefixDistance s t (i + 1) j + 1))
        (prefixDistance s t i j + if s[i]? = t[j]? then 0 else 1) := by
  conv => lhs; unfold prefixDistance

theorem prefixDistance_comm (s t : List α) (i j : Nat) :
    prefixDistance s t i j = prefixDistance t s j i := by
  induction i generalizing j with
  | zero => simp
  | succ i ihi =>
    induction j with
    | zero => simp
    | succ j ihj =>
      rw [prefixDistance_succ, prefixDistance_succ, ihi (j + 1), ihi j, ihj,
        min_comm (prefixDistance t s (j + 1) i + 1)]
      simp only [eq_comm]

/-- The distance is symmetric. -/
theorem levenshtein_comm (s t : List α) : levenshtein s t = levenshtein t s :=
  prefixDistance_comm s t _ _

theorem prefixDistance_le (s t : List α) (i j : Nat) : prefixDistance s t i j ≤ max i j := by
  induction i generalizing j with
  | zero => simp
  | succ i ih =>
    cases j with
    | zero => simp
    | succ j =>
      -- substituting pair by pair is one way to do it
      have hboth := ih j
      rw [prefixDistance_succ]
      split_ifs <;> omega

/-- No more edits are needed than the longer list has items. -/
theorem levenshtein_le (s t : List α) : levenshtein s t ≤ max s.length t.length :=
  prefixDistance_le s t _ _

/-- Only equal prefixes are at distance 0. -/
theorem prefixDistance_eq_zero {s t : List α} {i j : Nat} (hi : i ≤ s.length)
    (hj : j ≤ t.length) : prefixDistance s t i j = 0 ↔ s.take i = t.take j := by
  induction i generalizing j with
  | zero =>
    rw [prefixDistance_zero_left, List.take_zero, eq_comm (a := []), List.take_eq_nil_iff]
    constructor
    · exact Or.inl
    · rintro (rfl | rfl)
      · rfl
      · exact Nat.le_zero.mp hj
  | succ i ih =>
    have hlt : i < s.length := hi
    cases j with
    | zero =>
      rw [prefixDistance_zero_right, List.take_zero, List.take_eq_nil_iff]
      refine iff_of_false (Nat.succ_ne_zero i) ?_
      rintro (h | rfl)
      · exact Nat.succ_ne_zero i h
      · exact Nat.not_lt_zero i hlt
    | succ j =>
      have hlt' : j < t.length := hj
      have hsplit : s.take (i + 1) = t.take (j + 1) ↔ s.take i = t.take j ∧ s[i]? = t[j]? := by
        rw [List.take_succ_eq_append_getElem hlt, List.take_succ_eq_append_getElem hlt',
          List.getElem?_eq_getElem hlt, List.getElem?_eq_getElem hlt', Option.some_inj]
        constructor
        · intro h
          obtain ⟨hinit, hlast⟩ := List.append_inj' h rfl
          exact ⟨hinit, List.singleton_inj.mp hlast⟩
        · rintro ⟨hinit, hlast⟩
          rw [hinit, hlast]
      rw [prefixDistance_succ, hsplit, ← ih (by omega) (by omega)]
      split_ifs with heq
      · simp [heq]
      · simp [heq]

/-- The distance is 0 exactly between equal lists. -/
theorem levenshtein_eq_zero {s t : List α} : levenshtein s t = 0 ↔ s = t := by
  unfold levenshtein
  rw [prefixDistance_eq_zero le_rfl le_rfl, List.take_length, List.take_length]

end edit_distance
