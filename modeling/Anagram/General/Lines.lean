-- The lines of a text: its pieces up to each delimiter, and what is left after
-- the last one, if anything is.
import Mathlib

namespace delimited

variable {α : Type} [DecidableEq α]

/-- A delimiter ends a line, and so does the end of a text that is not empty. -/
def lines (d : α) : List α → List (List α)
  | [] => []
  | c :: cs =>
    if c = d then [] :: lines d cs
    else match lines d cs with
      | [] => [[c]]
      | l :: ls => (c :: l) :: ls

@[simp] theorem lines_nil (d : α) : lines d [] = [] := rfl

/-- The first line goes up to the first delimiter, and the others follow after it. -/
theorem lines_of_ne_nil (d : α) {cs : List α} (h : cs ≠ []) :
    lines d cs = cs.takeWhile (· ≠ d) :: lines d (cs.dropWhile (· ≠ d)).tail := by
  induction cs with
  | nil => exact absurd rfl h
  | cons c cs ih =>
    rw [lines]
    by_cases hc : c = d
    · rw [if_pos hc, List.takeWhile_cons_of_neg (by simpa using hc),
        List.dropWhile_cons_of_neg (by simpa using hc), List.tail_cons]
    · rw [if_neg hc, List.takeWhile_cons_of_pos (by simpa using hc),
        List.dropWhile_cons_of_pos (by simpa using hc)]
      cases cs with
      | nil => rfl
      | cons e cs => rw [ih (List.cons_ne_nil e cs)]

theorem lines_eq_nil {d : α} {cs : List α} : lines d cs = [] ↔ cs = [] := by
  constructor
  · intro h
    by_contra hne
    rw [lines_of_ne_nil d hne] at h
    cases h
  · rintro rfl
    rfl

/-- Each delimiter ends a line. -/
theorem count_le_length_lines (d : α) (cs : List α) : cs.count d ≤ (lines d cs).length := by
  induction cs with
  | nil => exact le_rfl
  | cons c cs ih =>
    rw [lines]
    by_cases hc : c = d
    · simpa [hc] using ih
    · rw [if_neg hc, List.count_cons_of_ne hc]
      cases hls : lines d cs with
      | nil =>
        rw [lines_eq_nil.mp hls]
        exact Nat.zero_le _
      | cons l ls =>
        rw [hls] at ih
        exact ih

theorem length_lines_le (d : α) (cs : List α) : (lines d cs).length ≤ cs.length := by
  induction cs with
  | nil => exact le_rfl
  | cons c cs ih =>
    rw [lines]
    split_ifs
    · exact Nat.succ_le_succ ih
    · cases hls : lines d cs with
      | nil => exact Nat.succ_le_succ (Nat.zero_le _)
      | cons l ls =>
        rw [hls] at ih
        exact ih.trans (Nat.le_succ _)

/-- The lines together are no longer than the text. -/
theorem sum_length_lines_le (d : α) (cs : List α) :
    ((lines d cs).map List.length).sum ≤ cs.length := by
  induction cs with
  | nil => exact le_rfl
  | cons c cs ih =>
    rw [lines]
    split_ifs
    · simp only [List.map_cons, List.length_nil, List.sum_cons, List.length_cons]
      omega
    · cases hls : lines d cs with
      | nil => simp
      | cons l ls =>
        rw [hls] at ih
        simp only [List.map_cons, List.sum_cons, List.length_cons] at ih ⊢
        omega

end delimited
