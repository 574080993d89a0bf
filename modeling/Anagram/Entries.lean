-- The entries of the list when the counts may be large. A cell shows the number of
-- its character modulo 256, and whenever it shows zero the code takes the character
-- for a new one. So the list has an entry for every 256 of a character, and `+=`
-- adds the cell of the other hash once for each of its entries.
import Anagram.MasterCount
import Anagram.CombineSearch
import Anagram.General.Wrapping

open outcome wrapping

namespace anagram

theorem ofNat_eq_zero_iff (n : Nat) : Int8.ofNat n = 0 ↔ 256 ∣ n := by
  rw [← Int8.toInt_inj, Int8.toInt_ofNat', Int8.toInt_zero, ← Int.dvd_iff_bmod_eq_zero]
  exact Int.natCast_dvd_natCast

/-- The entries that the count of a text with these letters makes. -/
def entries (m : Multiset UInt8) : Nat := ∑ c ∈ m.toFinset, (m.count c + 255) / 256

/-- The entries of a hash that has counted `m`, after `+=` of one that has counted `n`. -/
def sumEntries (m n : Multiset UInt8) : Nat :=
  entries m + ∑ c ∈ n.toFinset, zeros 256 (m.count c) (n.count c) ((n.count c + 255) / 256)

namespace OccupancyHash

/-- The list of the characters, with one for each entry. -/
def list (h : OccupancyHash) : List UInt8 := (List.range h.index_ptr).map h.occupancy_index

@[simp] theorem length_list (h : OccupancyHash) : h.list.length = h.index_ptr := by
  simp [list]

/-- The cells show the numbers `f`, and the list is `cs`. -/
structure Shows (h : OccupancyHash) (f : UInt8 → Nat) (cs : List UInt8) : Prop where
  cells : ∀ c, h.char_count c = Int8.ofNat (f c)
  list_eq : h.list = cs

theorem Shows.zero_iff {h : OccupancyHash} {f : UInt8 → Nat} {cs : List UInt8}
    (hs : Shows h f cs) (c : UInt8) : h.char_count c = 0 ↔ 256 ∣ f c := by
  rw [hs.cells, ofNat_eq_zero_iff]

theorem Cleared.shows {prior : OccupancyHash} (h : Cleared prior) :
    Shows prior (fun _ => 0) [] := by
  refine ⟨fun c => h.char_count c, ?_⟩
  unfold list
  rw [h.index_ptr]
  rfl

/-! ## One turn -/

theorem bump_ok_iff {h : OccupancyHash} {f : UInt8 → Nat} {cs : List UInt8} (hs : Shows h f cs)
    (c : UInt8) (count : Int8) :
    (∃ h', h.bump c count = .ok h') ↔ (256 ∣ f c → cs.length < kMaxCharsPerWord) := by
  rw [← hs.zero_iff, ← hs.list_eq, length_list]
  unfold bump occupy
  split_ifs <;> simp [*]

theorem bump_shows {h h' : OccupancyHash} {f : UInt8 → Nat} {cs : List UInt8}
    (hs : Shows h f cs) {c : UInt8} {k : Nat} (hb : h.bump c (Int8.ofNat k) = .ok h') :
    Shows h' (Function.update f c (f c + k)) (cs ++ if 256 ∣ f c then [c] else []) := by
  have hiff := hs.zero_iff c
  unfold bump occupy at hb
  split_ifs at hb with hzero hroom
  · cases hb
    refine ⟨fun d => ?_, ?_⟩
    · dsimp only
      by_cases hd : d = c
      · -- a cell that shows zero is set, which is the same as adding to it
        rw [hd, Function.update_self, Function.update_self, Int8.ofNat_add,
          ← hs.cells, hzero, Int8.zero_add]
      · rw [Function.update_of_ne hd, Function.update_of_ne hd, hs.cells]
    · rw [if_pos (hiff.mp hzero), ← hs.list_eq]
      unfold list
      dsimp only
      rw [List.range_succ, List.map_append, List.map_singleton, Function.update_self]
      congr 1
      apply List.map_congr_left
      intro i hi
      have hlt := List.mem_range.mp hi
      rw [Function.update_of_ne (by omega)]
  · cases hb
    refine ⟨fun d => ?_, ?_⟩
    · dsimp only
      by_cases hd : d = c
      · rw [hd, Function.update_self, Function.update_self, Int8.ofNat_add, hs.cells]
      · rw [Function.update_of_ne hd, Function.update_of_ne hd, hs.cells]
    · rw [if_neg (mt hiff.mpr hzero), List.append_nil, ← hs.list_eq]
      rfl

/-! ## Turn after turn -/

/-- The turns of the loops of `GetCharCountMap` and of `+=`, for the characters in order. -/
def bumpEach (h : OccupancyHash) (count : UInt8 → Int8) (cs : List UInt8) : Run OccupancyHash :=
  cs.foldlM (fun h c => h.bump c (count c)) h

theorem bumpEach_cons (h : OccupancyHash) (count : UInt8 → Int8) (c : UInt8) (cs : List UInt8) :
    h.bumpEach count (c :: cs) = h.bump c (count c) >>= fun h' => h'.bumpEach count cs :=
  List.foldlM_cons

section
variable {step : UInt8 → Nat}

/-- The turns go through as long as the list has room for the characters whose cells show zero. -/
theorem bumpEach_ok_iff (cs : List UInt8) {h : OccupancyHash} {f : UInt8 → Nat} {ds : List UInt8}
    (hs : Shows h f ds) (hroom : ds.length ≤ kMaxCharsPerWord) :
    (∃ h', h.bumpEach (fun c => Int8.ofNat (step c)) cs = .ok h') ↔
      ds.length + (atZero 256 step cs f).length ≤ kMaxCharsPerWord := by
  induction cs generalizing h f ds with
  | nil => exact iff_of_true ⟨h, rfl⟩ hroom
  | cons c cs ih =>
    have hfirst := bump_ok_iff hs c (Int8.ofNat (step c))
    rw [bumpEach_cons]
    unfold atZero
    rw [List.length_append, ← Nat.add_assoc, ← List.length_append]
    cases hb : h.bump c (Int8.ofNat (step c)) with
    | error e =>
      -- the cell shows zero, and the list is full
      have hfull : ¬ (256 ∣ f c → ds.length < kMaxCharsPerWord) := by
        rw [← hfirst, hb]
        rintro ⟨h', hh⟩
        cases hh
      push Not at hfull
      rw [if_pos hfull.1, List.length_append, List.length_singleton]
      refine iff_of_false ?_ (by omega)
      rintro ⟨h', hh⟩
      cases hh
    | ok h₁ =>
      have hlt := hfirst.mp ⟨h₁, hb⟩
      rw [bind_ok]
      apply ih (bump_shows hs hb)
      rw [List.length_append]
      split_ifs with hzero
      · exact hlt hzero
      · exact hroom

theorem bumpEach_shows (cs : List UInt8) {h h' : OccupancyHash} {f : UInt8 → Nat}
    {ds : List UInt8} (hs : Shows h f ds)
    (hrun : h.bumpEach (fun c => Int8.ofNat (step c)) cs = .ok h') :
    Shows h' (fun c => f c + cs.count c * step c) (ds ++ atZero 256 step cs f) := by
  induction cs generalizing h f ds with
  | nil =>
    cases hrun
    simpa [atZero] using hs
  | cons c cs ih =>
    rw [bumpEach_cons] at hrun
    obtain ⟨h₁, hb, hrun⟩ := bind_eq_ok.mp hrun
    have hrest := ih (bump_shows hs hb) hrun
    unfold atZero
    rw [← List.append_assoc]
    convert hrest using 2 with d
    by_cases hd : d = c
    · rw [hd, Function.update_self, List.count_cons_self, Nat.succ_mul]
      omega
    · rw [Function.update_of_ne hd, List.count_cons_of_ne (Ne.symm hd)]

end

/-! ## Counts and sums -/

theorem getCharCountMap_eq_bumpEach {w : Text} (hw : Ascii w) (h : OccupancyHash) :
    h.getCharCountMap w = h.bumpEach (fun _ => Int8.ofNat 1) (w.filter (fun c => c ≠ 0x20)) := by
  induction w generalizing h with
  | nil => rfl
  | cons c w ih =>
    obtain ⟨hpos, hlt⟩ := hw c List.mem_cons_self
    have hrest : Ascii w := fun d hd => hw d (List.mem_cons_of_mem _ hd)
    unfold getCharCountMap
    rw [if_neg (UInt8.ne_of_lt hpos).symm]
    by_cases hspace : c = 0x20
    · rw [if_pos hspace, List.filter_cons_of_neg (by simpa using hspace)]
      exact ih hrest h
    · rw [if_neg hspace, List.filter_cons_of_pos (by simpa using hspace), bumpEach_cons,
        cell_of_lt hlt, bind_ok]
      congr 1
      funext h'
      exact ih hrest h'

theorem addLoop_eq_bumpEach {b : OccupancyHash} (tb : Tidy b) (k : Nat) (hk : k ≤ b.index_ptr)
    (h : OccupancyHash) : h.addLoop b k =
      h.bumpEach b.char_count ((List.range k).map b.occupancy_index).reverse := by
  induction k generalizing h with
  | zero => rfl
  | succ k ih =>
    unfold addLoop
    rw [occupied_of hk tb.ptr_le (tb.listed_lt k hk), bind_ok, List.range_succ, List.map_append,
      List.reverse_append, List.map_singleton, List.reverse_singleton, List.singleton_append,
      bumpEach_cons]
    congr 1
    funext h'
    exact ih (by omega) h'

/-- The hash has counted `m` from an empty one, with an entry for each 256 of a character. -/
structure Counted (h : OccupancyHash) (m : Multiset UInt8) : Prop where
  cells : ∀ c, h.char_count c = Int8.ofNat (m.count c)
  count_list : ∀ c, h.list.count c = (m.count c + 255) / 256

theorem Counted.shows {h : OccupancyHash} {m : Multiset UInt8} (hm : Counted h m) :
    Shows h (fun c => m.count c) h.list := ⟨hm.cells, rfl⟩

theorem Counted.mem_list {h : OccupancyHash} {m : Multiset UInt8} (hm : Counted h m)
    (c : UInt8) : c ∈ h.list ↔ c ∈ m := by
  rw [← List.count_pos_iff, ← Multiset.count_pos, hm.count_list]
  omega

theorem Counted.length_list {h : OccupancyHash} {m : Multiset UInt8} (hm : Counted h m) :
    h.list.length = entries m := by
  unfold entries
  rw [← Multiset.coe_card, ← Multiset.sum_count_eq_card fun c hc =>
    Multiset.mem_toFinset.mpr ((hm.mem_list c).mp hc)]
  apply Finset.sum_congr rfl
  intro c _
  rw [Multiset.coe_count, hm.count_list]

theorem count_filter_letters (w : Text) (c : UInt8) :
    (letters w).count c = (w.filter (fun c => c ≠ 0x20)).count c := Multiset.coe_count c _

section
variable {prior : OccupancyHash} (hprior : Cleared prior) {w : Text} (hw : Ascii w)
include hprior hw

/-- A text can be counted when its entries fit the list. -/
theorem count_ok_iff :
    (∃ h, prior.getCharCountMap w = .ok h) ↔ entries (letters w) ≤ kMaxCharsPerWord := by
  rw [getCharCountMap_eq_bumpEach hw, bumpEach_ok_iff _ hprior.shows (Nat.zero_le _),
    length_atZero, List.length_nil, Nat.zero_add]
  simp only [zeros_from_zero (show 0 < 256 by decide), ← count_filter_letters]
  rfl

theorem counted_of_count {h : OccupancyHash} (hrun : prior.getCharCountMap w = .ok h) :
    Counted h (letters w) := by
  rw [getCharCountMap_eq_bumpEach hw] at hrun
  obtain ⟨hcells, hlist⟩ := bumpEach_shows _ hprior.shows hrun
  refine ⟨fun c => ?_, fun c => ?_⟩
  · rw [hcells, Nat.zero_add, Nat.mul_one, count_filter_letters]
  · rw [hlist, List.nil_append, count_atZero, zeros_from_zero (by decide), count_filter_letters]

end

/-- A sum can be formed when its entries fit the list. -/
theorem add_ok_iff {h b : OccupancyHash} {m n : Multiset UInt8} (hm : Counted h m)
    (hn : Counted b n) (th : Tidy h) (tb : Tidy b) :
    (∃ sum, h.addAssign b = .ok sum) ↔ sumEntries m n ≤ kMaxCharsPerWord := by
  have hroom : h.list.length ≤ kMaxCharsPerWord := by
    rw [OccupancyHash.length_list]
    exact th.ptr_le
  have hset : b.list.reverse.toFinset = n.toFinset := by
    ext c
    rw [List.mem_toFinset, List.mem_reverse, hn.mem_list, Multiset.mem_toFinset]
  have hcells : b.char_count = fun c => Int8.ofNat (n.count c) := funext hn.cells
  unfold addAssign
  rw [addLoop_eq_bumpEach tb _ le_rfl, hcells]
  change (∃ sum, h.bumpEach _ b.list.reverse = .ok sum) ↔ _
  rw [bumpEach_ok_iff _ hm.shows hroom, length_atZero, hm.length_list, hset]
  simp only [List.count_reverse, hn.count_list]
  rfl

end OccupancyHash

/-! ## Below the wrap -/

/-- As long as no character is there more than 127 times, each has one entry. -/
theorem entries_eq_distinct {m : Multiset UInt8} (hcount : ∀ c, m.count c ≤ 127) :
    entries m = m.toFinset.card := by
  unfold entries
  rw [Finset.card_eq_sum_ones]
  apply Finset.sum_congr rfl
  intro c hc
  have hpos := Multiset.count_pos.mpr (Multiset.mem_toFinset.mp hc)
  have hle := hcount c
  omega

end anagram
