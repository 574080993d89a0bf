-- What PrintSubset prints (main.cc): the keys of the subset in rows of eight,
-- with commas between them. The rows can be read back: split at the commas and
-- the ends of lines, the text gives the keys again.
import Anagram.PrintedRows

namespace anagram

/-! ## The rows -/

/-- The texts that the loop of `PrintSubset` and the line after it push, from a column and the row
so far. -/
def rowsLoop : List Text → Nat → Text → List Text
  | [], _, out => [out ++ bytes "\n\n"]
  | key :: keys, column_count, out =>
    if column_count - 1 = 0 then (out ++ key ++ bytes "\n") :: rowsLoop keys 8 []
    else rowsLoop keys (column_count - 1) (out ++ key ++ bytes ",")

def subsetRows (keys : List Text) : List Text := rowsLoop keys 8 []

theorem printLoop_rows (keys : List Text) (n : Nat) (out : Text) (w : World) :
    (printLoop keys n out w).2.push ((printLoop keys n out w).1 ++ bytes "\n\n") =
      (rowsLoop keys n out).foldl World.push w := by
  induction keys generalizing n out w with
  | nil => rfl
  | cons key keys ih =>
    rw [printLoop_cons, rowsLoop]
    split_ifs
    · exact ih 8 [] _
    · exact ih (n - 1) _ w

/-- `PrintSubset` pushes the rows of the keys. -/
theorem printSubset_eq (subset : StringMap) (w : World) :
    printSubset subset w = (subsetRows subset.keys).foldl World.push w :=
  printLoop_rows subset.keys 8 [] w

theorem effects_pushes (rows : List Text) (w : World) :
    (rows.foldl World.push w).effects = w.effects ++ rows.map Effect.push := by
  induction rows generalizing w with
  | nil => simp
  | cons row rows ih =>
    rw [List.foldl_cons, ih]
    simp [World.push]

/-! ## Reading them back -/

/-- A byte that ends a key: a comma, or the end of a line. -/
def endsKey (c : UInt8) : Bool := c == 0x2c || c == 0x0a

theorem bytes_comma : bytes "," = [0x2c] := by decide

theorem bytes_newline : bytes "\n" = [0x0a] := by decide

theorem bytes_newlines : bytes "\n\n" = [0x0a, 0x0a] := by decide

/-- What is in the row already comes before the rest. -/
theorem flatten_rowsLoop (keys : List Text) (n : Nat) (out : Text) :
    (rowsLoop keys n out).flatten = out ++ (rowsLoop keys n []).flatten := by
  induction keys generalizing n out with
  | nil => simp [rowsLoop]
  | cons key keys ih =>
    rw [rowsLoop, rowsLoop]
    split_ifs
    · simp
    · rw [ih (n - 1) (out ++ key ++ bytes ","), ih (n - 1) ([] ++ key ++ bytes ",")]
      simp

/-- Each key comes back, and the two ends of lines at the end leave nothing after them. -/
theorem splitOnP_rowsLoop (keys : List Text) (hkeys : ∀ key ∈ keys, ∀ c ∈ key, endsKey c = false)
    (n : Nat) : (rowsLoop keys n []).flatten.splitOnP endsKey = keys ++ [[], [], []] := by
  induction keys generalizing n with
  | nil => rfl
  | cons key keys ih =>
    have hkey : ∀ c ∈ key, endsKey c = false := hkeys key List.mem_cons_self
    have hrest := ih fun k hk => hkeys k (List.mem_cons_of_mem _ hk)
    rw [rowsLoop]
    split_ifs
    · rw [List.flatten_cons, List.nil_append, bytes_newline, List.append_assoc,
        List.singleton_append, List.splitOnP_append_cons_of_forall_mem hkey _ (by decide), hrest,
        List.cons_append]
    · rw [flatten_rowsLoop, List.nil_append, bytes_comma, List.append_assoc,
        List.singleton_append, List.splitOnP_append_cons_of_forall_mem hkey _ (by decide), hrest,
        List.cons_append]

/-! ## How they lie -/

/-- The keys up to the end of a row lie in it, with commas between them. -/
theorem rowsLoop_row {row : List Text} {n : Nat} (h : row.length = n) (hpos : 0 < n)
    (rest : List Text) (out : Text) :
    rowsLoop (row ++ rest) n out =
      (out ++ [0x2c].intercalate row ++ bytes "\n") :: rowsLoop rest 8 [] := by
  induction row generalizing n out with
  | nil =>
    rw [List.length_nil] at h
    omega
  | cons key row ih =>
    rw [List.length_cons] at h
    rw [List.cons_append, rowsLoop]
    by_cases hend : n - 1 = 0
    · have hrow : row = [] := List.length_eq_zero_iff.mp (by omega)
      rw [if_pos hend, hrow]
      simp
    · obtain ⟨next, row', hrow⟩ := List.exists_cons_of_ne_nil (l := row) (by
        rintro rfl
        simp only [List.length_nil] at h
        omega)
      rw [if_neg hend, ih (by omega) (by omega), hrow, List.intercalate_cons_cons, bytes_comma]
      simp

/-- The last keys are in one text. -/
theorem rowsLoop_few {keys : List Text} {n : Nat} (h : keys.length < n) (out : Text) :
    (rowsLoop keys n out).length = 1 := by
  induction keys generalizing n out with
  | nil => rfl
  | cons key keys ih =>
    rw [List.length_cons] at h
    rw [rowsLoop, if_neg (by omega)]
    exact ih (by omega) _

/-- There is a row for every eight keys, and one for what is left. -/
theorem subsetRows_rows (keys : List Text) :
    (subsetRows keys).length = keys.length / 8 + 1 ∧
    ∀ i, 8 * (i + 1) ≤ keys.length → (subsetRows keys)[i]? =
      some ([0x2c].intercalate ((keys.drop (8 * i)).take 8) ++ bytes "\n") := by
  induction hn : keys.length using Nat.strong_induction_on generalizing keys with
  | _ n ih =>
    subst hn
    unfold subsetRows
    rcases Nat.lt_or_ge keys.length 8 with hlt | hge
    · refine ⟨?_, fun i hi => by omega⟩
      rw [rowsLoop_few hlt, Nat.div_eq_of_lt hlt]
    · have htake : (keys.take 8).length = 8 := by
        rw [List.length_take]
        omega
      have hdrop : (keys.drop 8).length = keys.length - 8 := List.length_drop
      obtain ⟨hlength, hrows⟩ := ih _ (by omega) (keys.drop 8) rfl
      have hfirst := rowsLoop_row htake (by decide) (keys.drop 8) []
      rw [List.take_append_drop] at hfirst
      unfold subsetRows at hlength hrows
      rw [hfirst]
      refine ⟨?_, fun i hi => ?_⟩
      · rw [List.length_cons, hlength, hdrop]
        omega
      · cases i with
        | zero => rfl
        | succ i =>
          rw [List.getElem?_cons_succ, hrows i (by omega), List.drop_drop,
            Nat.mul_succ, Nat.add_comm]

/-- What `PrintSubset` pushes can be read back. Each row but the last one has eight keys of the
subset, with commas between them, and from all rows together, split at the commas and the ends of
lines, the keys come back in their order. -/
theorem the_printed_subset_can_be_read_back (subset : StringMap)
    (hkeys : ∀ key ∈ subset, ∀ c ∈ key, endsKey c = false) (w : World) :
    ∃ rows : List Text, printSubset subset w = rows.foldl World.push w ∧
      rows.length = subset.keys.length / 8 + 1 ∧
      (∀ i, 8 * (i + 1) ≤ subset.keys.length → rows[i]? =
        some ([0x2c].intercalate ((subset.keys.drop (8 * i)).take 8) ++ bytes "\n")) ∧
      rows.flatten.splitOnP endsKey = subset.keys ++ [[], [], []] := by
  obtain ⟨hlength, hrows⟩ := subsetRows_rows subset.keys
  refine ⟨subsetRows subset.keys, printSubset_eq subset w, hlength, hrows, ?_⟩
  exact splitOnP_rowsLoop _ (fun key hkey => hkeys key (Std.TreeMap.mem_keys.mp hkey)) 8

theorem the_printed_subset_of_a_and_b_can_be_read_back :
    ∃ rows : List Text, printSubset (subsetOf [bytes "a", bytes "b"]) .start =
        rows.foldl World.push .start ∧
      rows.flatten.splitOnP endsKey = [bytes "a", bytes "b", [], [], []] := by
  have hkeys : (subsetOf [bytes "a", bytes "b"]).keys = [bytes "a", bytes "b"] := by
    decide +kernel
  have hfree : ∀ key ∈ subsetOf [bytes "a", bytes "b"], ∀ c ∈ key, endsKey c = false := by
    intro key hkey
    rw [← Std.TreeMap.mem_keys, hkeys] at hkey
    exact (by decide +kernel :
      ∀ key ∈ [bytes "a", bytes "b"], ∀ c ∈ key, endsKey c = false) key hkey
  obtain ⟨rows, hpushed, -, -, hback⟩ := the_printed_subset_can_be_read_back
    (subsetOf [bytes "a", bytes "b"]) hfree .start
  rw [hkeys] at hback
  exact ⟨rows, hpushed, hback⟩

end anagram
