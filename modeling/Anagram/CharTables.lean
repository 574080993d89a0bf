-- The tables of the occupancy hash have one cell for each value of a byte, as
-- their declaration says, but a char is signed. A byte from 128 on becomes an
-- index near 2 to the 64, and only the lower half of the tables is ever used.
import Anagram.TableAccesses

open outcome traced

namespace anagram

namespace OccupancyHash

/-! ## Each entry leads back to its cell -/

/-- The place in `index_index_` of each character of the list is its own place. -/
def Linked (h : OccupancyHash) : Prop :=
  ∀ i < h.index_ptr, h.index_index (h.occupancy_index i) = Int8.ofNat i

theorem linked_new : Linked new := by
  intro i hi
  simp [new] at hi

/-- A new entry gets its own place, and the other entries keep theirs. -/
theorem linked_bump {h h' : OccupancyHash} {m : Multiset UInt8} {c : UInt8} {n : Int8}
    (hm : Holds h m) (hzero : h.char_count c = 0 ↔ c ∉ m) (hl : Linked h)
    (hb : h.bump c n = .ok h') : Linked h' := by
  unfold bump occupy at hb
  split_ifs at hb with hnew hroom
  · cases hb
    have hc : c ∉ m := hzero.mp hnew
    intro i hi
    dsimp only at hi ⊢
    by_cases hlast : i = h.index_ptr
    · rw [hlast, Function.update_self, Function.update_self]
    · have hlt : i < h.index_ptr := by omega
      have hne : h.occupancy_index i ≠ c := fun he => hc ((hm.listed c).mp ⟨i, hlt, he⟩)
      rw [Function.update_of_ne hlast, Function.update_of_ne hne]
      exact hl i hlt
  · cases hb
    exact hl

theorem getCharCountMap_linked (w : Text) (hw : Ascii w) {h h' : OccupancyHash}
    {m : Multiset UInt8} (hm : Holds h m) (hf : Fits (m + letters w)) (hl : Linked h)
    (hrun : h.getCharCountMap w = .ok h') : Linked h' := by
  induction w generalizing h m with
  | nil =>
    cases hrun
    exact hl
  | cons c w ih =>
    obtain ⟨hpos, hlt⟩ := hw c (by simp)
    have hrest : Ascii w := fun d hd => hw d (by simp [hd])
    rw [getCharCountMap, if_neg (by rintro rfl; simp at hpos)] at hrun
    split_ifs at hrun with hsp
    · subst hsp
      rw [letters_cons_space] at hf
      exact ih hrest hm hf hl hrun
    · rw [add_letters_cons hsp] at hf
      rw [cell_of_lt hlt, bind_ok] at hrun
      obtain ⟨h₁, hb, hrun⟩ := bind_eq_ok.mp hrun
      obtain ⟨h₂, hb', hm₁⟩ := holds_bump (k := 1) (by omega) hm
        (hf.mono (Multiset.le_add_right _ _))
      obtain rfl := Except.ok.inj (hb.symm.trans hb')
      have hzero := hm.count_eq_zero (hf.mono ((Multiset.le_add_right _ _).trans
        (Multiset.le_add_right _ _))) c
      exact ih hrest hm₁ hf (linked_bump hm hzero hl hb) hrun

/-- A count that ends has taken no byte from 128 on. -/
theorem lt_of_getCharCountMap (w : Text) (hw : ∀ c ∈ w, c ≠ 0) {h h' : OccupancyHash}
    (hrun : h.getCharCountMap w = .ok h') : ∀ c ∈ w, c < 128 := by
  induction w generalizing h with
  | nil => simp
  | cons c w ih =>
    have hrest : ∀ d ∈ w, d ≠ 0 := fun d hd => hw d (List.mem_cons_of_mem _ hd)
    rw [getCharCountMap, if_neg (hw c List.mem_cons_self)] at hrun
    split_ifs at hrun with hsp
    · rw [List.forall_mem_cons]
      exact ⟨by rw [hsp]; decide, ih hrest hrun⟩
    · obtain ⟨d, hd, hrun⟩ := bind_eq_ok.mp hrun
      obtain ⟨h₁, -, hrun⟩ := bind_eq_ok.mp hrun
      rw [List.forall_mem_cons]
      exact ⟨(cell_eq_ok hd).1, ih hrest hrun⟩

/-- The cells that a count accesses are those of characters of the word. -/
theorem cell_of_access (w : Text) {h : OccupancyHash} {i : Nat}
    (hi : .cell i ∈ (h.getCharCountMapInAccesses w).steps) : ∃ c ∈ w, i = sizeOfChar c := by
  induction w generalizing h with
  | nil => simp [getCharCountMapInAccesses] at hi
  | cons c w ih =>
    unfold getCharCountMapInAccesses at hi
    split_ifs at hi
    · simp at hi
    · obtain ⟨d, hd, rfl⟩ := ih hi
      exact ⟨d, List.mem_cons_of_mem _ hd, rfl⟩
    · rw [mem_steps_bind, steps_note, List.mem_singleton] at hi
      rcases hi with hi | ⟨d, -, hi⟩
      · exact ⟨c, List.mem_cons_self, TableAccess.cell.inj hi⟩
      · rw [mem_steps_bind] at hi
        rcases hi with hi | ⟨h₁, -, hi⟩
        · unfold bumpInAccesses at hi
          split_ifs at hi <;> simp at hi
        · obtain ⟨d, hd, rfl⟩ := ih hi
          exact ⟨d, List.mem_cons_of_mem _ hd, rfl⟩

end OccupancyHash

/-! ## The whole domain of the tables -/

open OccupancyHash

/-- What the tables are declared for: the count of the word accesses only cells 0 to 255, fills
the cell of each byte with its number, lists each character so that the entry read back designates
the cell that it was stored for, and a following `clear` restores the default state. -/
structure TablesCover (w : Text) : Prop where
  cells : ∀ i, .cell i ∈ (OccupancyHash.new.getCharCountMapInAccesses w).steps → i ≤ 255
  counted : ∃ h, OccupancyHash.new.getCharCountMap w = .ok h ∧
    (∀ c, c ≠ 0x20 → (h.char_count c).toInt = w.count c) ∧
    (∀ c ∈ w, c ≠ 0x20 → ∃ i < h.index_ptr, h.occupied i = .ok c) ∧
    (∀ i < h.index_ptr, ∃ c, h.occupied i = .ok c ∧ h.index_index c = Int8.ofNat i) ∧
    h.clear = .ok .new

theorem count_letters (w : Text) {c : UInt8} (hc : c ≠ 0x20) : (letters w).count c = w.count c := by
  unfold letters
  rw [Multiset.coe_count, List.count_filter (by simpa using hc)]

/-- For a string over the bytes 1 to 255, within the sizes of the tables, the tables cover it
exactly when all its bytes are below 128. -/
theorem the_tables_cover_a_word_iff_it_is_ascii (w : Text) (hw : ∀ c ∈ w, c ≠ 0)
    (hdistinct : (letters w).toFinset.card ≤ kMaxCharsPerWord)
    (hcount : ∀ c, (letters w).count c ≤ 127) : TablesCover w ↔ ∀ c ∈ w, c < 128 := by
  constructor
  · rintro ⟨-, h, hrun, -⟩
    exact lt_of_getCharCountMap w hw hrun
  · intro hlt
    have hascii : Ascii w := fun c hc => ⟨UInt8.pos_iff_ne_zero.mpr (hw c hc), hlt c hc⟩
    have hfits : Fits (letters w) := by
      refine ⟨fun c hc => ?_, hcount, hdistinct⟩
      exact hlt c (mem_letters.mp hc).1
    obtain ⟨h, hrun, hholds⟩ := getCharCountMap_holds w hascii holds_new (by simpa using hfits)
    have hlinked := getCharCountMap_linked w hascii holds_new (by simpa using hfits) linked_new hrun
    rw [zero_add] at hholds
    refine ⟨fun i hi => ?_, h, hrun, fun c hc => ?_, fun c hc hsp => ?_, fun i hi => ?_, ?_⟩
    · obtain ⟨c, hc, rfl⟩ := cell_of_access w hi
      have := (sizeOfChar_lt_iff c).mpr (hlt c hc)
      omega
    · have hle := hcount c
      rw [← count_letters w hc, hholds.counts, Int8.toInt_ofNat_of_lt (by omega)]
    · obtain ⟨i, hi, rfl⟩ := (hholds.listed c).mpr (mem_letters.mpr ⟨hc, hsp⟩)
      exact ⟨i, hi, hholds.occupied hfits hi⟩
    · exact ⟨_, hholds.occupied hfits hi, hlinked i hi⟩
    · exact clear_tidy (tidy_getCharCountMap w tidy_new hrun)

theorem the_tables_cover_tea : TablesCover (bytes "tea") := by
  have hcard : (letters (bytes "tea")).card = 3 := by decide
  refine (the_tables_cover_a_word_iff_it_is_ascii (bytes "tea") (by decide +kernel) ?_
    fun c => ?_).mpr (by decide +kernel)
  · exact (Multiset.toFinset_card_le _).trans (by rw [hcard]; decide)
  · exact (Multiset.count_le_card c _).trans (by omega)

/-- The byte 233 becomes the index 2 to the 64 minus 23. -/
theorem the_byte_233_has_no_cell :
    .cell (2 ^ 64 - 23) ∈ (OccupancyHash.new.getCharCountMapInAccesses [233]).steps ∧
      ¬ TablesCover [233] := by
  have haccess : .cell (2 ^ 64 - 23) ∈
      (OccupancyHash.new.getCharCountMapInAccesses [233]).steps := by
    unfold getCharCountMapInAccesses
    rw [if_neg (by decide), if_neg (by decide), mem_steps_bind, steps_note, List.mem_singleton]
    exact Or.inl (by decide +kernel)
  exact ⟨haccess, fun h => absurd (h.cells _ haccess) (by decide)⟩

end anagram
