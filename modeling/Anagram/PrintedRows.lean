-- The rows of the subset that PrintSubset pushes, and what the worker prints of
-- a pushed text. A text is printed as it is when it leaves room for its NUL in a
-- slot, and nothing in main.cc looks at the length of a row.
import Anagram.Gather
import Anagram.OutputQueue

namespace anagram

/-! ## What is printed of a slot -/

theorem cStringAt_eq_none {memory : Nat → UInt8} {n loc : Nat}
    (h : ∀ j < n, memory (loc + j) ≠ 0) : cStringAt memory n loc = none := by
  induction n generalizing loc with
  | zero => rfl
  | succ n ih =>
    have hrest : cStringAt memory n (loc + 1) = none := by
      apply ih
      intro j hj
      rw [Nat.add_assoc, Nat.add_comm 1 j]
      exact h (j + 1) (by omega)
    unfold cStringAt
    rw [if_neg (by simpa using h 0 (Nat.succ_pos n)), hrest]
    rfl

/-- In whatever memory a text is written, the worker prints this text from its slot. -/
def PrintsItself (text : CString) : Prop :=
  ∀ q : OutputQueue, q.queue_start_index < kOutputQueueSize →
    (q.write (some text)).printed (q.queue_start_index * kOutputQueueItemSize) = some text.bytes

/-- A text that fills its slot has no NUL there. In a memory without a NUL, to print it would go
on past the memory. -/
theorem printsItself_iff (text : CString) : PrintsItself text ↔ FitsSlot text := by
  constructor
  · intro hprints
    by_contra hlong
    unfold FitsSlot at hlong
    have hprinted := hprints ⟨fun _ => 7, 0, 0⟩ (by decide)
    have hnone : (OutputQueue.write ⟨fun _ => 7, 0, 0⟩ (some text)).printed
        (0 * kOutputQueueItemSize) = none := by
      apply cStringAt_eq_none
      intro j _
      simp only [OutputQueue.write, strncpy]
      split_ifs with hslot
      · have hj : 0 * kOutputQueueItemSize + j - 0 * kOutputQueueItemSize < text.bytes.length := by
          omega
        rw [List.getD_eq_getElem _ _ hj]
        exact fun h0 => text.no_nul (h0 ▸ List.getElem_mem hj)
      · decide
    rw [hnone] at hprinted
    cases hprinted
  · intro hfits q hq
    exact (q.slotHolds_write text).printed hq hfits

/-! ## Rows -/

/-- The length of a row of keys, with a comma or the end of the line after each. -/
def rowLength (row : List Text) : Nat := (row.map fun key => key.length + 1).sum

/-- Each full row of eight keys leaves room for its NUL in a slot, and so does the last row with
its two ends of lines. -/
structure ShortRows (keys : List Text) : Prop where
  full : ∀ i, 8 * (i + 1) ≤ keys.length → rowLength ((keys.drop (8 * i)).take 8) ≤ 255
  last : rowLength (keys.drop (8 * (keys.length / 8))) ≤ 253

theorem shortRows_of_lt {keys : List Text} (h : keys.length < 8) :
    ShortRows keys ↔ rowLength keys ≤ 253 := by
  have hnone : keys.length / 8 = 0 := Nat.div_eq_of_lt h
  constructor
  · intro hrows
    have hlast := hrows.last
    rwa [hnone] at hlast
  · intro hlast
    refine ⟨fun i hi => by omega, ?_⟩
    rw [hnone]
    exact hlast

theorem shortRows_append {row rest : List Text} (h : row.length = 8) :
    ShortRows (row ++ rest) ↔ rowLength row ≤ 255 ∧ ShortRows rest := by
  have hdrop : ∀ i, (row ++ rest).drop (8 * (i + 1)) = rest.drop (8 * i) := by
    intro i
    rw [Nat.mul_succ, Nat.add_comm, ← List.drop_drop, List.drop_append_of_le_length h.ge,
      List.drop_eq_nil_of_le h.le, List.nil_append]
  have hrows : (8 + rest.length) / 8 = rest.length / 8 + 1 := by omega
  constructor
  · rintro ⟨hfull, hlast⟩
    refine ⟨?_, fun i hi => ?_, ?_⟩
    · have hfirst := hfull 0 (by simp [h])
      rwa [Nat.mul_zero, List.drop_zero, List.take_append_of_le_length h.ge,
        List.take_of_length_le h.le] at hfirst
    · have hnext := hfull (i + 1) (by rw [List.length_append, h]; omega)
      rwa [hdrop] at hnext
    · rwa [List.length_append, h, hrows, hdrop] at hlast
  · rintro ⟨hfirst, hfull, hlast⟩
    refine ⟨fun i hi => ?_, ?_⟩
    · rw [List.length_append, h] at hi
      cases i with
      | zero =>
        rwa [Nat.mul_zero, List.drop_zero, List.take_append_of_le_length h.ge,
          List.take_of_length_le h.le]
      | succ i =>
        rw [hdrop]
        exact hfull i (by omega)
    · rwa [List.length_append, h, hrows, hdrop]

/-! ## PrintSubset -/

theorem printLoop_cons (key : Text) (keys : List Text) (n : Nat) (out : Text) (w : World) :
    printLoop (key :: keys) n out w =
      if n - 1 = 0 then printLoop keys 8 [] (w.push (out ++ key ++ bytes "\n"))
      else printLoop keys (n - 1) (out ++ key ++ bytes ",") w := rfl

/-- The last keys, with a comma after each. -/
theorem printLoop_few {keys : List Text} {n : Nat} (h : keys.length < n) (out : Text) (w : World) :
    ∃ more, printLoop keys n out w = (out ++ more, w) ∧ more.length = rowLength keys := by
  induction keys generalizing n out with
  | nil => exact ⟨[], by simp [printLoop], rfl⟩
  | cons key keys ih =>
    rw [List.length_cons] at h
    obtain ⟨more, hmore, hlen⟩ := ih (by omega : keys.length < n - 1) (out ++ key ++ bytes ",")
    refine ⟨key ++ bytes "," ++ more, ?_, ?_⟩
    · rw [printLoop_cons, if_neg (by omega), hmore]
      simp
    · have hcomma : (bytes ",").length = 1 := by decide
      simp only [List.length_append, hlen, hcomma, rowLength, List.map_cons, List.sum_cons]

/-- The keys up to the end of a row are pushed with it. -/
theorem printLoop_row {row : List Text} {n : Nat} (h : row.length = n) (hpos : 0 < n)
    (rest : List Text) (out : Text) (w : World) :
    ∃ more, printLoop (row ++ rest) n out w = printLoop rest 8 [] (w.push (out ++ more)) ∧
      more.length = rowLength row := by
  induction row generalizing n out with
  | nil =>
    rw [List.length_nil] at h
    omega
  | cons key row ih =>
    rw [List.length_cons] at h
    rw [List.cons_append, printLoop_cons]
    by_cases hend : n - 1 = 0
    · have hrow : row = [] := List.length_eq_zero_iff.mp (by omega)
      have hline : (bytes "\n").length = 1 := by decide
      refine ⟨key ++ bytes "\n", ?_, ?_⟩
      · rw [if_pos hend, hrow, List.append_assoc]
        rfl
      · simp [hrow, hline, rowLength]
    · have hcomma : (bytes ",").length = 1 := by decide
      obtain ⟨more, hmore, hlen⟩ := ih (by omega : row.length = n - 1) (by omega)
        (out ++ key ++ bytes ",")
      refine ⟨key ++ bytes "," ++ more, ?_, ?_⟩
      · rw [if_neg hend, hmore]
        simp
      · simp only [List.length_append, hlen, hcomma, rowLength, List.map_cons, List.sum_cons]

/-- `PrintSubset` pushes its rows, which leave room for their NULs when the keys do. -/
theorem printSubset_pushes (subset : StringMap) (w : World) :
    ∃ rows : List Text, printSubset subset w = rows.foldl World.push w ∧
      ((∀ row ∈ rows, row.length < kOutputQueueItemSize) ↔ ShortRows subset.keys) := by
  suffices hloop : ∀ n, ∀ keys : List Text, keys.length = n → ∀ w, ∃ rows : List Text,
      (printLoop keys 8 [] w).2.push ((printLoop keys 8 [] w).1 ++ bytes "\n\n") =
        rows.foldl World.push w ∧
      ((∀ row ∈ rows, row.length < kOutputQueueItemSize) ↔ ShortRows keys) from
    hloop _ subset.keys rfl w
  intro n
  induction n using Nat.strong_induction_on with
  | _ n ih =>
    intro keys hn w
    by_cases hlt : keys.length < 8
    · obtain ⟨more, hmore, hlen⟩ := printLoop_few hlt [] w
      refine ⟨[more ++ bytes "\n\n"], ?_, ?_⟩
      · rw [hmore]
        rfl
      · have hlines : (bytes "\n\n").length = 2 := by decide
        rw [shortRows_of_lt hlt, List.forall_mem_singleton, List.length_append, hlen, hlines,
          kOutputQueueItemSize]
        omega
    · have htake : (keys.take 8).length = 8 := by
        rw [List.length_take]
        omega
      have hrest : (keys.drop 8).length < n := by
        rw [List.length_drop]
        omega
      obtain ⟨more, hmore, hlen⟩ := printLoop_row htake (by omega) (keys.drop 8) [] w
      obtain ⟨rows, hrows, hshort⟩ := ih _ hrest (keys.drop 8) rfl (w.push ([] ++ more))
      rw [List.take_append_drop] at hmore
      refine ⟨more :: rows, ?_, ?_⟩
      · rw [hmore, hrows]
        rfl
      · have hrow : rowLength (keys.take 8) < kOutputQueueItemSize ↔
            rowLength (keys.take 8) ≤ 255 := Nat.lt_succ_iff
        have hsplit := @shortRows_append _ (keys.drop 8) htake
        rw [List.take_append_drop] at hsplit
        rw [List.forall_mem_cons, hshort, hsplit, hlen, hrow]

end anagram
