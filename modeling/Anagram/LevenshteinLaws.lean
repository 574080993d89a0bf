-- CalcLevenshtein of ternary_tree.cc keeps one column of the table of the
-- distances and overwrites it from top to bottom. The cell that it is about to
-- lose is the diagonal of the next one, so it saves that cell first.
import Anagram.FuzzyFind
import Anagram.General.EditScripts

open edit_distance

namespace anagram

theorem min3_eq (a b c : Nat) : min3 a b c = min (min a b) c := by
  unfold min3
  split_ifs <;> omega

/-- Before the turn for `y`, with `x` characters of `s2` done, the column has the next row of the
table above `y`, and the last row from `y` on. -/
structure InTurn (s1 s2 : Text) (x y : Nat) (column : Nat → Nat) (lastdiag : Nat) : Prop where
  above : ∀ z < y, column z = prefixDistance s1 s2 z (x + 1)
  below : ∀ z, y ≤ z → z ≤ s1.length → column z = prefixDistance s1 s2 z x
  diag : lastdiag = prefixDistance s1 s2 (y - 1) x

/-- One turn of the loop over `y` moves on by one cell, and saves the diagonal. -/
theorem inTurn_step {s1 s2 : Text} {x i : Nat} {column : Nat → Nat} {lastdiag : Nat} {c1 c2 : UInt8}
    (h1 : s1[i]? = some c1) (h2 : s2[x]? = some c2)
    (h : InTurn s1 s2 x (i + 1) column lastdiag) :
    InTurn s1 s2 x (i + 2)
      (Function.update column (i + 1)
        (min3 (column (i + 1) + 1) (column (i + 1 - 1) + 1)
          (lastdiag + if c1 = c2 then 0 else 1))) (column (i + 1)) where
  above z hz := by
    by_cases hzi : z = i + 1
    · have hlt : i < s1.length := (List.getElem?_eq_some_iff.mp h1).1
      subst hzi
      rw [Function.update_self, min3_eq, prefixDistance_succ, h1, h2, h.below (i + 1) le_rfl hlt,
        h.above (i + 1 - 1) (by omega), h.diag]
      simp only [Nat.add_sub_cancel, Option.some_inj]
      rw [min_comm (prefixDistance s1 s2 (i + 1) x + 1)]
    · rw [Function.update_of_ne hzi]
      exact h.above z (by omega)
  below z hz hle := by
    rw [Function.update_of_ne (by omega)]
    exact h.below z (by omega) hle
  diag := by
    have hlt : i < s1.length := (List.getElem?_eq_some_iff.mp h1).1
    exact h.below (i + 1) le_rfl hlt

/-- The loop over `y` leaves the next row of the table. -/
theorem rowLoop_eq {s1 s2 : Text} {x : Nat} {c2 : UInt8} (h2 : s2[x]? = some c2) {rest : Text}
    {i : Nat} (hrest : rest = s1.drop i) {column : Nat → Nat} {lastdiag : Nat}
    (h : InTurn s1 s2 x (i + 1) column lastdiag) :
    ∀ z ≤ s1.length,
      rowLoop c2 rest (i + 1) column lastdiag z = prefixDistance s1 s2 z (x + 1) := by
  induction rest generalizing i column lastdiag with
  | nil =>
    intro z hz
    have hlen : s1.length ≤ i := List.drop_eq_nil_iff.mp hrest.symm
    exact h.above z (by omega)
  | cons c1 rest ih =>
    have h1 : s1[i]? = some c1 := by
      rw [← List.head?_drop, ← hrest, List.head?_cons]
    have hnext : rest = s1.drop (i + 1) := by
      rw [← List.tail_drop, ← hrest, List.tail_cons]
    exact ih hnext (inTurn_step h1 h2 h)

/-- The loop over `x` leaves the last row, up to the cell 0 that no turn writes when there is
none. -/
theorem columnLoop_eq {s1 s2 rest : Text} {x : Nat} (hrest : rest = s2.drop x)
    {column : Nat → Nat} (hx : x ≤ s2.length)
    (h : ∀ z, 0 < z → z ≤ s1.length → column z = prefixDistance s1 s2 z x) :
    ∀ z ≤ s1.length, (0 < z ∨ rest ≠ []) →
      columnLoop s1 rest (x + 1) column z = prefixDistance s1 s2 z s2.length := by
  induction rest generalizing x column with
  | nil =>
    intro z hz hor
    have hlen : s2.length = x := le_antisymm (List.drop_eq_nil_iff.mp hrest.symm) hx
    rw [hlen]
    exact h z (hor.resolve_right fun hne => hne rfl) hz
  | cons c2 rest ih =>
    intro z hz _
    have h2 : s2[x]? = some c2 := by
      rw [← List.head?_drop, ← hrest, List.head?_cons]
    have hnext : rest = s2.drop (x + 1) := by
      rw [← List.tail_drop, ← hrest, List.tail_cons]
    have hstart : InTurn s1 s2 x 1 (Function.update column 0 (x + 1)) (x + 1 - 1) := by
      refine ⟨fun z hz => ?_, fun z hz hle => ?_, by simp⟩
      · obtain rfl : z = 0 := by omega
        rw [Function.update_self, prefixDistance_zero_left]
      · rw [Function.update_of_ne (by omega)]
        exact h z hz hle
    have hrow := rowLoop_eq h2 (List.drop_zero (l := s1)).symm hstart
    by_cases hlast : rest = []
    · subst hlast
      have hlen : s2.length = x + 1 := by
        have hle := List.drop_eq_nil_iff.mp hnext.symm
        have hlt := (List.getElem?_eq_some_iff.mp h2).1
        omega
      rw [hlen]
      exact hrow z hz
    · exact ih hnext (List.getElem?_eq_some_iff.mp h2).1
        (fun z _ hle => hrow z hle) z hz (Or.inr hlast)

theorem initLoop_apply (column : Nat → Nat) (n z : Nat) (hz : 0 < z) (hle : z ≤ n) :
    initLoop column n z = z := by
  induction n with
  | zero => omega
  | succ n ih =>
    unfold initLoop
    by_cases hzn : z = n + 1
    · rw [hzn, Function.update_self]
    · rw [Function.update_of_ne hzn]
      exact ih (by omega)

theorem calcLevenshtein_eq {s1 s2 : Text} (h : s1 ≠ [] ∨ s2 ≠ []) (column : Nat → Nat) :
    calcLevenshtein column s1 s2 = levenshtein s1 s2 := by
  have hcolumn : ∀ z ≤ s1.length, (0 < z ∨ s2 ≠ []) →
      columnLoop s1 s2 1 (initLoop column s1.length) z = prefixDistance s1 s2 z s2.length := by
    apply columnLoop_eq (x := 0) List.drop_zero.symm (Nat.zero_le _)
    intro z hz hle
    rw [initLoop_apply column _ z hz hle, prefixDistance_zero_right]
  unfold calcLevenshtein levenshtein
  rw [hcolumn s1.length le_rfl (h.imp_left List.length_pos_iff.mpr)]

/-- `CalcLevenshtein` is the distance of the two strings, whatever is in the memory of the column
before. So it is symmetric, and 0 exactly for equal strings. -/
theorem calcLevenshtein_is_the_distance {s1 s2 : Text} (h : s1 ≠ [] ∨ s2 ≠ [])
    (column : Nat → Nat) :
    calcLevenshtein column s1 s2 = levenshtein s1 s2 ∧
    (∀ column', calcLevenshtein column' s2 s1 = calcLevenshtein column s1 s2) ∧
    (calcLevenshtein column s1 s2 = 0 ↔ s1 = s2) := by
  refine ⟨calcLevenshtein_eq h column, fun column' => ?_, ?_⟩
  · rw [calcLevenshtein_eq h.symm, calcLevenshtein_eq h, levenshtein_comm]
  · rw [calcLevenshtein_eq h, Nat.cast_eq_zero, levenshtein_eq_zero]

theorem calcLevenshtein_is_the_distance_of_cat_and_cart :
    calcLevenshtein (fun _ => 9) (bytes "cat") (bytes "cart") =
      levenshtein (bytes "cat") (bytes "cart") ∧
    (∀ column', calcLevenshtein column' (bytes "cart") (bytes "cat") =
      calcLevenshtein (fun _ => 9) (bytes "cat") (bytes "cart")) ∧
    (calcLevenshtein (fun _ => 9) (bytes "cat") (bytes "cart") = 0 ↔
      bytes "cat" = bytes "cart") :=
  calcLevenshtein_is_the_distance (Or.inl (by decide)) _

/-! ## Edits -/

/-- `CalcLevenshtein` is the least number of characters to insert, delete or substitute one by one
until the first string is the second one. So a detour over a third string is never shorter, and the
lengths of the strings differ by no more. -/
theorem calcLevenshtein_is_the_least_number_of_edits {s1 s2 : Text} (h : s1 ≠ [] ∨ s2 ≠ [])
    (column : Nat → Nat) :
    ∃ n : Nat, calcLevenshtein column s1 s2 = n ∧ Edits n s1 s2 ∧
      (∀ m, Edits m s1 s2 → n ≤ m) ∧ s1.length ≤ s2.length + n ∧ s2.length ≤ s1.length + n ∧
      ∀ s3 column' column'', (s1 ≠ [] ∨ s3 ≠ []) → (s3 ≠ [] ∨ s2 ≠ []) →
        (n : Int) ≤ calcLevenshtein column' s1 s3 + calcLevenshtein column'' s3 s2 := by
  have hedits := edits_levenshtein s1 s2
  refine ⟨levenshtein s1 s2, calcLevenshtein_eq h column, hedits,
    fun m hm => levenshtein_le_of_edits hm, hedits.length_le.1, hedits.length_le.2, ?_⟩
  intro s3 column' column'' h13 h32
  rw [calcLevenshtein_eq h13, calcLevenshtein_eq h32]
  exact_mod_cast levenshtein_triangle s1 s3 s2

theorem one_edit_turns_cat_into_cart :
    ∃ n : Nat, calcLevenshtein (fun _ => 9) (bytes "cat") (bytes "cart") = n ∧
      Edits n (bytes "cat") (bytes "cart") ∧ ∀ m, Edits m (bytes "cat") (bytes "cart") → n ≤ m := by
  obtain ⟨n, hn, hedits, hleast, -⟩ := calcLevenshtein_is_the_least_number_of_edits
    (Or.inl (by decide) : bytes "cat" ≠ [] ∨ bytes "cart" ≠ []) (fun _ => 9)
  exact ⟨n, hn, hedits, hleast⟩

end anagram
