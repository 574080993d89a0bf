-- The laws of the occupancy hash. A hash that holds a multiset of characters
-- compares as the multiset does, for every order of its list. `clear` gives
-- back the default state from every state that the operations can reach.
import Anagram.OccupancyHash

open outcome

namespace anagram

/-- The characters of a phrase that count: all but the spaces. -/
def letters (w : Text) : Multiset UInt8 := ↑(w.filter (fun c => c ≠ 0x20))

/-- The multiset fits the tables: 40 distinct characters, and 127 of each. -/
structure Fits (m : Multiset UInt8) : Prop where
  ascii : ∀ c ∈ m, c < 128
  count_le : ∀ c, m.count c ≤ 127
  distinct_le : m.toFinset.card ≤ kMaxCharsPerWord

theorem Fits.mono {m n : Multiset UInt8} (h : Fits n) (hmn : m ≤ n) : Fits m where
  ascii c hc := h.ascii c (Multiset.mem_of_le hmn hc)
  count_le c := (Multiset.count_le_of_le c hmn).trans (h.count_le c)
  distinct_le := (Finset.card_le_card (Multiset.toFinset_subset.mpr
    (Multiset.subset_of_le hmn))).trans h.distinct_le

@[simp] theorem letters_nil : letters [] = 0 := rfl

theorem letters_cons_space (w : Text) : letters (0x20 :: w) = letters w := by
  simp [letters]

theorem letters_cons {c : UInt8} (h : c ≠ 0x20) (w : Text) :
    letters (c :: w) = c ::ₘ letters w := by
  simp [letters, h]

theorem letters_append (u v : Text) : letters (u ++ v) = letters u + letters v := by
  simp [letters]

theorem mem_letters {c : UInt8} {w : Text} : c ∈ letters w ↔ c ∈ w ∧ c ≠ 0x20 := by
  simp [letters]

theorem card_letters_le (w : Text) : (letters w).card ≤ w.length := List.length_filter_le _ w

/-! ## Counts in a signed char -/

theorem ofNat_eq_zero {k : Nat} (h : k ≤ 127) : Int8.ofNat k = 0 ↔ k = 0 := by
  constructor
  · intro h0
    have hk := Int8.toInt_ofNat_of_lt (n := k) (by omega)
    rw [h0] at hk
    simpa using hk.symm
  · rintro rfl
    rfl

theorem ofNat_lt {j k : Nat} (hj : j ≤ 127) (hk : k ≤ 127) :
    Int8.ofNat j < Int8.ofNat k ↔ j < k := by
  rw [Int8.lt_iff_toInt_lt, Int8.toInt_ofNat_of_lt (by omega), Int8.toInt_ofNat_of_lt (by omega)]
  omega

namespace OccupancyHash

/-! ## The state that `clear` can undo -/

/-- Every cell that is not zero is one that the list leads to. -/
structure Tidy (h : OccupancyHash) : Prop where
  ptr_le : h.index_ptr ≤ kMaxCharsPerWord
  listed_lt : ∀ i < h.index_ptr, h.occupancy_index i < 128
  rest_zero : ∀ i, h.index_ptr ≤ i → h.occupancy_index i = 0
  counted : ∀ c, h.char_count c ≠ 0 → ∃ i < h.index_ptr, h.occupancy_index i = c
  placed : ∀ c, h.index_index c ≠ 0 → ∃ i < h.index_ptr, h.occupancy_index i = c

theorem tidy_new : Tidy new := by
  refine ⟨by simp [new], ?_, fun _ _ => rfl, ?_, ?_⟩
  · intro i hi
    simp [new] at hi
  · intro c hc
    simp [new] at hc
  · intro c hc
    simp [new] at hc

theorem occupied_of {h : OccupancyHash} {i : Nat} (hi : i < h.index_ptr)
    (hp : h.index_ptr ≤ kMaxCharsPerWord) (hc : h.occupancy_index i < 128) :
    h.occupied i = .ok (h.occupancy_index i) := by
  rw [occupied, if_pos (by omega), cell_of_lt hc]

/-- One turn of `clear` takes the last entry off a tidy hash. -/
theorem tidy_clear_turn {h : OccupancyHash} {i : Nat} (hi : h.index_ptr = i + 1) (t : Tidy h) :
    Tidy { occupancy_index := Function.update h.occupancy_index i 0
           index_index := Function.update h.index_index (h.occupancy_index i) 0
           char_count := Function.update h.char_count (h.occupancy_index i) 0
           index_ptr := i } := by
  have earlier : ∀ c, c ≠ h.occupancy_index i → (∃ j < h.index_ptr, h.occupancy_index j = c) →
      ∃ j < i, Function.update h.occupancy_index i 0 j = c := by
    rintro c hc ⟨j, hj, rfl⟩
    have hji : j ≠ i := fun h => hc (by rw [h])
    exact ⟨j, by omega, by rw [Function.update_of_ne hji]⟩
  refine ⟨by have := t.ptr_le; dsimp only; omega, ?_, ?_, ?_, ?_⟩
  · intro j hj
    dsimp only at hj ⊢
    rw [Function.update_of_ne (by omega)]
    exact t.listed_lt j (by omega)
  · intro j hj
    dsimp only at hj ⊢
    by_cases hji : j = i
    · rw [hji, Function.update_self]
    · rw [Function.update_of_ne hji]
      exact t.rest_zero j (by omega)
  · intro c hc
    dsimp only at hc
    by_cases hci : c = h.occupancy_index i
    · simp [hci] at hc
    · rw [Function.update_of_ne hci] at hc
      exact earlier c hci (t.counted c hc)
  · intro c hc
    dsimp only at hc
    by_cases hci : c = h.occupancy_index i
    · simp [hci] at hc
    · rw [Function.update_of_ne hci] at hc
      exact earlier c hci (t.placed c hc)

theorem tidy_empty {h : OccupancyHash} (hi : h.index_ptr = 0) (t : Tidy h) : h = new := by
  have hocc : h.occupancy_index = fun _ => 0 := funext fun i => t.rest_zero i (by omega)
  have hidx : h.index_index = fun _ => 0 := by
    funext c
    by_contra hc
    obtain ⟨i, hlt, _⟩ := t.placed c hc
    omega
  have hcnt : h.char_count = fun _ => 0 := by
    funext c
    by_contra hc
    obtain ⟨i, hlt, _⟩ := t.counted c hc
    omega
  cases h
  simp_all [new]

theorem clearLoop_tidy (i : Nat) (h : OccupancyHash) (hi : h.index_ptr = i) (t : Tidy h) :
    h.clearLoop i = .ok new := by
  induction i generalizing h with
  | zero =>
    rw [clearLoop, ← tidy_empty hi t, ← hi]
  | succ i ih =>
    rw [clearLoop, occupied_of (by omega) t.ptr_le (t.listed_lt i (by omega)), bind_ok]
    exact ih _ rfl (tidy_clear_turn hi t)

/-- `clear` gives back the default state. -/
theorem clear_tidy {h : OccupancyHash} (t : Tidy h) : h.clear = .ok new :=
  clearLoop_tidy _ h rfl t

/-- An entry at the end adds its character to those that are listed. -/
theorem listed_snoc (list : Nat → UInt8) (n : Nat) (c d : UInt8) :
    (∃ i < n + 1, Function.update list n c i = d) ↔ (∃ i < n, list i = d) ∨ d = c := by
  constructor
  · rintro ⟨i, hi, rfl⟩
    by_cases hin : i = n
    · exact Or.inr (by rw [hin, Function.update_self])
    · exact Or.inl ⟨i, by omega, by rw [Function.update_of_ne hin]⟩
  · rintro (⟨i, hi, rfl⟩ | rfl)
    · exact ⟨i, by omega, by rw [Function.update_of_ne (by omega)]⟩
    · exact ⟨n, by omega, by rw [Function.update_self]⟩

/-- A cell that is not zero after a write is the written one, or it was not zero before. -/
theorem ne_zero_of_update {f : UInt8 → Int8} {c d : UInt8} {x : Int8}
    (hd : Function.update f c x d ≠ 0) : d = c ∨ f d ≠ 0 := by
  by_cases hdc : d = c
  · exact Or.inl hdc
  · rw [Function.update_of_ne hdc] at hd
    exact Or.inr hd

theorem tidy_occupy {h h' : OccupancyHash} {c : UInt8} {n : Int8} (hc : c < 128) (t : Tidy h)
    (ho : h.occupy c n = .ok h') : Tidy h' := by
  unfold occupy at ho
  split at ho
  · cases ho
    refine ⟨by dsimp only; omega, ?_, ?_, ?_, ?_⟩
    · intro i hi
      dsimp only at hi ⊢
      by_cases hip : i = h.index_ptr
      · rw [hip, Function.update_self]
        exact hc
      · rw [Function.update_of_ne hip]
        exact t.listed_lt i (by omega)
    · intro i hi
      dsimp only at hi ⊢
      rw [Function.update_of_ne (by omega)]
      exact t.rest_zero i (by omega)
    · intro d hd
      apply (listed_snoc h.occupancy_index h.index_ptr c d).mpr
      rcases ne_zero_of_update hd with rfl | hd
      · exact Or.inr rfl
      · exact Or.inl (t.counted d hd)
    · intro d hd
      apply (listed_snoc h.occupancy_index h.index_ptr c d).mpr
      rcases ne_zero_of_update hd with rfl | hd
      · exact Or.inr rfl
      · exact Or.inl (t.placed d hd)
  · cases ho

theorem tidy_bump {h h' : OccupancyHash} {c : UInt8} {n : Int8} (hc : c < 128) (t : Tidy h)
    (hb : h.bump c n = .ok h') : Tidy h' := by
  unfold bump at hb
  split at hb
  · exact tidy_occupy hc t hb
  · rename_i hne
    cases hb
    refine ⟨t.ptr_le, t.listed_lt, t.rest_zero, ?_, t.placed⟩
    intro d hd
    rcases ne_zero_of_update hd with rfl | hd
    · exact t.counted d hne
    · exact t.counted d hd

theorem tidy_getCharCountMap (w : Text) {h h' : OccupancyHash} (t : Tidy h)
    (hw : h.getCharCountMap w = .ok h') : Tidy h' := by
  induction w generalizing h with
  | nil =>
    cases hw
    exact t
  | cons c w ih =>
    rw [getCharCountMap] at hw
    split_ifs at hw
    · cases hw
      exact t
    · exact ih t hw
    · obtain ⟨d, hd, hrest⟩ := bind_eq_ok.mp hw
      obtain ⟨h1, hb, hlast⟩ := bind_eq_ok.mp hrest
      obtain ⟨hc, rfl⟩ := cell_eq_ok hd
      exact ih (tidy_bump hc t hb) hlast

theorem tidy_addLoop (b : OccupancyHash) (k : Nat) {h h' : OccupancyHash} (t : Tidy h)
    (ha : h.addLoop b k = .ok h') : Tidy h' := by
  induction k generalizing h with
  | zero =>
    cases ha
    exact t
  | succ k ih =>
    rw [addLoop] at ha
    obtain ⟨c, hc, hrest⟩ := bind_eq_ok.mp ha
    obtain ⟨h1, hb, hlast⟩ := bind_eq_ok.mp hrest
    have hlt : c < 128 := by
      unfold occupied at hc
      split at hc
      · obtain ⟨hlt, rfl⟩ := cell_eq_ok hc
        exact hlt
      · cases hc
    exact ih (tidy_bump hlt t hb) hlast

theorem tidy_addAssign {h b h' : OccupancyHash} (t : Tidy h) (ha : h.addAssign b = .ok h') :
    Tidy h' := tidy_addLoop b _ t ha

/-! ## A hash that holds a multiset -/

/-- The hash holds the multiset `m`: the counts are those of `m`, and the list has each
character of `m` once, in any order. `index_index` is not part of it, for no comparison reads
that table. -/
structure Holds (h : OccupancyHash) (m : Multiset UInt8) : Prop where
  counts : ∀ c, h.char_count c = Int8.ofNat (m.count c)
  listed : ∀ c, (∃ i < h.index_ptr, h.occupancy_index i = c) ↔ c ∈ m
  inj : ∀ i < h.index_ptr, ∀ j < h.index_ptr, h.occupancy_index i = h.occupancy_index j → i = j

theorem holds_new : Holds new 0 := by
  refine ⟨fun c => rfl, fun c => ?_, ?_⟩
  · simp [new]
  · intro i hi
    simp [new] at hi

/-- The list has as many entries as the multiset has distinct characters. -/
theorem index_ptr_eq_card {h : OccupancyHash} {m : Multiset UInt8} (hm : Holds h m) :
    h.index_ptr = m.toFinset.card := by
  have himg : (Finset.range h.index_ptr).image h.occupancy_index = m.toFinset := by
    ext c
    simp [← hm.listed c]
  rw [← himg, Finset.card_image_of_injOn, Finset.card_range]
  intro i hi j hj hij
  exact hm.inj i (by simpa using hi) j (by simpa using hj) hij

theorem Holds.mem_listed {h : OccupancyHash} {m : Multiset UInt8} (hm : Holds h m) {i : Nat}
    (hi : i < h.index_ptr) : h.occupancy_index i ∈ m := (hm.listed _).mp ⟨i, hi, rfl⟩

theorem Holds.occupied {h : OccupancyHash} {m : Multiset UInt8} (hm : Holds h m) (hf : Fits m)
    {i : Nat} (hi : i < h.index_ptr) : h.occupied i = .ok (h.occupancy_index i) :=
  occupied_of hi (index_ptr_eq_card hm ▸ hf.distinct_le) (hf.ascii _ (hm.mem_listed hi))

theorem Holds.count_eq_zero {h : OccupancyHash} {m : Multiset UInt8} (hm : Holds h m)
    (hf : Fits m) (c : UInt8) : h.char_count c = 0 ↔ c ∉ m := by
  rw [hm.counts, ofNat_eq_zero (hf.count_le c), Multiset.count_eq_zero]

/-- The characters of two hashes compare as their counts do. -/
theorem Holds.count_lt {a b : OccupancyHash} {m n : Multiset UInt8} (ha : Holds a m)
    (hb : Holds b n) (hm : Fits m) (hn : Fits n) (c : UInt8) :
    a.char_count c < b.char_count c ↔ m.count c < n.count c := by
  rw [ha.counts, hb.counts, ofNat_lt (hm.count_le c) (hn.count_le c)]

theorem count_add_replicate (m : Multiset UInt8) (k : Nat) (c d : UInt8) :
    (m + Multiset.replicate k c).count d = if d = c then m.count c + k else m.count d := by
  rw [Multiset.count_add, Multiset.count_replicate]
  split_ifs with h1 h2 h2
  · rw [h1]
  · exact absurd h1.symm h2
  · exact absurd h2.symm h1
  · rfl

theorem mem_add_replicate {m : Multiset UInt8} {k : Nat} (hk : 0 < k) (c d : UInt8) :
    d ∈ m + Multiset.replicate k c ↔ d ∈ m ∨ d = c := by
  simp [Multiset.mem_replicate, hk.ne']

/-- The list has room for a new character, when the sum still fits. -/
theorem Holds.room {h : OccupancyHash} {m : Multiset UInt8} {c : UInt8} {k : Nat} (hm : Holds h m)
    (hk : 0 < k) (hc : c ∉ m) (hf : Fits (m + Multiset.replicate k c)) :
    h.index_ptr < kMaxCharsPerWord := by
  have hcard : (insert c m.toFinset).card ≤ kMaxCharsPerWord := by
    apply (Finset.card_le_card _).trans hf.distinct_le
    intro d hd
    rw [Multiset.mem_toFinset, mem_add_replicate hk]
    simpa [or_comm] using hd
  rw [Finset.card_insert_of_notMem (by simpa using hc), ← index_ptr_eq_card hm] at hcard
  omega

theorem inj_snoc {list : Nat → UInt8} {n : Nat} {c : UInt8}
    (hinj : ∀ i < n, ∀ j < n, list i = list j → i = j) (hfresh : ∀ i < n, list i ≠ c) :
    ∀ i < n + 1, ∀ j < n + 1,
      Function.update list n c i = Function.update list n c j → i = j := by
  intro i hi j hj hij
  by_cases hin : i = n <;> by_cases hjn : j = n
  · rw [hin, hjn]
  · rw [hin, Function.update_self, Function.update_of_ne hjn] at hij
    exact absurd hij.symm (hfresh j (by omega))
  · rw [hjn, Function.update_self, Function.update_of_ne hin] at hij
    exact absurd hij (hfresh i (by omega))
  · rw [Function.update_of_ne hin, Function.update_of_ne hjn] at hij
    exact hinj i (by omega) j (by omega) hij

/-- A character that is new goes to the end of the list, with its count. -/
theorem holds_occupy {h : OccupancyHash} {m : Multiset UInt8} {c : UInt8} {k : Nat} (hk : 0 < k)
    (hm : Holds h m) (hc : c ∉ m) (hf : Fits (m + Multiset.replicate k c)) :
    ∃ h', h.occupy c (Int8.ofNat k) = .ok h' ∧ Holds h' (m + Multiset.replicate k c) := by
  unfold occupy
  rw [if_pos (hm.room hk hc hf)]
  refine ⟨_, rfl, fun d => ?_, fun d => ?_, ?_⟩
  · rw [count_add_replicate]
    dsimp only
    by_cases hd : d = c
    · rw [hd, Function.update_self, if_pos rfl, Multiset.count_eq_zero_of_notMem hc,
        Nat.zero_add]
    · rw [Function.update_of_ne hd, if_neg hd, hm.counts]
  · rw [mem_add_replicate hk, ← hm.listed]
    exact listed_snoc h.occupancy_index h.index_ptr c d
  · exact inj_snoc hm.inj fun i hi he => hc ((hm.listed c).mp ⟨i, hi, he⟩)

/-- A bump adds `k` of one character, when the sum still fits. -/
theorem holds_bump {h : OccupancyHash} {m : Multiset UInt8} {c : UInt8} {k : Nat} (hk : 0 < k)
    (hm : Holds h m) (hf : Fits (m + Multiset.replicate k c)) :
    ∃ h', h.bump c (Int8.ofNat k) = .ok h' ∧ Holds h' (m + Multiset.replicate k c) := by
  have hnew := hm.count_eq_zero (hf.mono (Multiset.le_add_right _ _)) c
  unfold bump
  split_ifs with hzero
  · exact holds_occupy hk hm (hnew.mp hzero) hf
  · have hc : c ∈ m := by
      by_contra hc
      exact hzero (hnew.mpr hc)
    refine ⟨_, rfl, fun d => ?_, fun d => ?_, hm.inj⟩
    · rw [count_add_replicate]
      dsimp only
      by_cases hd : d = c
      · rw [hd, Function.update_self, if_pos rfl, hm.counts, Int8.ofNat_add]
      · rw [Function.update_of_ne hd, if_neg hd, hm.counts]
    · rw [mem_add_replicate hk, ← hm.listed d, hm.listed d]
      constructor
      · exact Or.inl
      · rintro (h1 | rfl)
        · exact h1
        · exact hc

theorem add_letters_cons {c : UInt8} (h : c ≠ 0x20) (m : Multiset UInt8) (w : Text) :
    m + letters (c :: w) = m + Multiset.replicate 1 c + letters w := by
  rw [letters_cons h, Multiset.replicate_one, add_assoc, Multiset.singleton_add]

/-- `GetCharCountMap` adds the letters of the word, when the sum still fits. -/
theorem getCharCountMap_holds (w : Text) (hw : Ascii w) {h : OccupancyHash}
    {m : Multiset UInt8} (hm : Holds h m) (hf : Fits (m + letters w)) :
    ∃ h', h.getCharCountMap w = .ok h' ∧ Holds h' (m + letters w) := by
  induction w generalizing h m with
  | nil => exact ⟨h, rfl, by simpa using hm⟩
  | cons c w ih =>
    obtain ⟨hpos, hlt⟩ := hw c (by simp)
    have hrest : Ascii w := fun d hd => hw d (by simp [hd])
    rw [getCharCountMap, if_neg (by rintro rfl; simp at hpos)]
    split_ifs with hsp
    · subst hsp
      rw [letters_cons_space] at hf ⊢
      exact ih hrest hm hf
    · rw [add_letters_cons hsp] at hf ⊢
      obtain ⟨h1, hb, hh1⟩ := holds_bump (k := 1) (by omega) hm
        (hf.mono (Multiset.le_add_right _ _))
      rw [cell_of_lt hlt, bind_ok, show (1 : Int8) = Int8.ofNat 1 from rfl, hb, bind_ok]
      exact ih hrest hh1 hf

/-- The part of `n` that the first `k` entries of the list of `b` lead to. -/
def listedPart (b : OccupancyHash) (n : Multiset UInt8) (k : Nat) : Multiset UInt8 :=
  n.filter (fun c => ∃ i < k, b.occupancy_index i = c)

theorem listedPart_succ {b : OccupancyHash} {n : Multiset UInt8} (hb : Holds b n) {k : Nat}
    (hk : k < b.index_ptr) : listedPart b n (k + 1) =
      Multiset.replicate (n.count (b.occupancy_index k)) (b.occupancy_index k) +
        listedPart b n k := by
  ext d
  rw [listedPart, listedPart, Multiset.count_add, Multiset.count_replicate,
    Multiset.count_filter, Multiset.count_filter]
  by_cases hd : b.occupancy_index k = d
  · have hno : ¬ ∃ i < k, b.occupancy_index i = d := by
      rintro ⟨i, hi, he⟩
      have := hb.inj i (by omega) k hk (he.trans hd.symm)
      omega
    rw [if_pos ⟨k, by omega, hd⟩, if_pos hd, if_neg hno, hd, Nat.add_zero]
  · have hiff : (∃ i < k + 1, b.occupancy_index i = d) ↔ ∃ i < k, b.occupancy_index i = d :=
      Nat.exists_lt_succ_right.trans (or_iff_left hd)
    simp only [hiff, if_neg hd, Nat.zero_add]

theorem listedPart_all {b : OccupancyHash} {n : Multiset UInt8} (hb : Holds b n) :
    listedPart b n b.index_ptr = n :=
  Multiset.filter_eq_self.mpr fun c hc => (hb.listed c).mpr hc

theorem addLoop_holds {b : OccupancyHash} {n : Multiset UInt8} (hb : Holds b n) (hn : Fits n)
    (k : Nat) (hk : k ≤ b.index_ptr) {h : OccupancyHash} {m : Multiset UInt8} (hm : Holds h m)
    (hf : Fits (m + listedPart b n k)) :
    ∃ h', h.addLoop b k = .ok h' ∧ Holds h' (m + listedPart b n k) := by
  induction k generalizing h m with
  | zero => exact ⟨h, rfl, by simpa [listedPart] using hm⟩
  | succ k ih =>
    rw [listedPart_succ hb (by omega), ← add_assoc] at hf ⊢
    have hpos : 0 < n.count (b.occupancy_index k) :=
      Multiset.count_pos.mpr (hb.mem_listed (by omega))
    obtain ⟨h1, hb1, hh1⟩ := holds_bump hpos hm (hf.mono (Multiset.le_add_right _ _))
    rw [addLoop, hb.occupied hn (by omega), bind_ok, hb.counts, hb1, bind_ok]
    exact ih (by omega) hh1 hf

/-- `+=` adds the multiset of the other hash, when the sum still fits. -/
theorem addAssign_holds {h b : OccupancyHash} {m n : Multiset UInt8} (hm : Holds h m)
    (hb : Holds b n) (hf : Fits (m + n)) :
    ∃ h', h.addAssign b = .ok h' ∧ Holds h' (m + n) := by
  have hall := listedPart_all hb
  have hadd := addLoop_holds hb (hf.mono (Multiset.le_add_left _ _)) b.index_ptr le_rfl hm
  rw [hall] at hadd
  exact hadd hf

/-! ## The comparisons -/

/-- The first loop of `Compare`, for the entries below `k`. -/
theorem compareLoop_holds {a b : OccupancyHash} {m n : Multiset UInt8} (ha : Holds a m)
    (hb : Holds b n) (hm : Fits m) (hn : Fits n) (k : Nat) (hk : k ≤ a.index_ptr) (r : Int) :
    ∃ s, compareLoop a b k r = .ok s ∧
      ((∃ i < k, n.count (a.occupancy_index i) < m.count (a.occupancy_index i)) → s = 1) ∧
      ((∀ i < k, m.count (a.occupancy_index i) ≤ n.count (a.occupancy_index i)) →
        (s = r ∨ s = -1) ∧
        (s = r ∨ ∃ i < k, m.count (a.occupancy_index i) < n.count (a.occupancy_index i)) ∧
        ((∃ i < k, m.count (a.occupancy_index i) < n.count (a.occupancy_index i)) →
          s = -1)) := by
  induction k generalizing r with
  | zero => exact ⟨r, rfl, by simp, fun _ => by simp⟩
  | succ k ih =>
    rw [compareLoop, ha.occupied hm (by omega), bind_ok]
    split_ifs with hgt hlt
    · rw [hb.count_lt ha hn hm] at hgt
      refine ⟨1, rfl, fun _ => rfl, fun hall => ?_⟩
      have := hall k (by omega)
      omega
    · rw [ha.count_lt hb hm hn] at hlt
      obtain ⟨s, hs, hpos, hneg⟩ := ih (by omega) (-1)
      refine ⟨s, hs, fun h1 => ?_, fun hall => ?_⟩
      · rcases Nat.exists_lt_succ_right.mp h1 with h1 | h1
        · exact hpos h1
        · omega
      · obtain ⟨h1, _, _⟩ := hneg (fun i hi => hall i (by omega))
        have hs1 : s = -1 := h1.elim id id
        exact ⟨Or.inr hs1, Or.inr ⟨k, by omega, hlt⟩, fun _ => hs1⟩
    · rw [hb.count_lt ha hn hm] at hgt
      rw [ha.count_lt hb hm hn] at hlt
      obtain ⟨s, hs, hpos, hneg⟩ := ih (by omega) r
      rw [Nat.exists_lt_succ_right, or_iff_left hgt, Nat.exists_lt_succ_right, or_iff_left hlt]
      exact ⟨s, hs, hpos, fun hall => hneg fun i hi => hall i (by omega)⟩

/-- The second loop of `Compare`, for the entries below `k`. -/
theorem compareRest_holds {a b : OccupancyHash} {m n : Multiset UInt8} (ha : Holds a m)
    (hb : Holds b n) (hm : Fits m) (hn : Fits n) (k : Nat) (hk : k ≤ b.index_ptr) :
    compareRest a b k = .ok
      (if ∃ i < k, m.count (b.occupancy_index i) < n.count (b.occupancy_index i) then -1
        else 0) := by
  induction k with
  | zero => simp [compareRest]
  | succ k ih =>
    rw [compareRest, hb.occupied hn (by omega), bind_ok, ih (by omega)]
    simp only [Nat.exists_lt_succ_right, ha.count_lt hb hm hn]
    by_cases hlast : m.count (b.occupancy_index k) < n.count (b.occupancy_index k)
    · rw [if_pos hlast, if_pos (Or.inr hlast)]
    · rw [if_neg hlast]
      simp only [hlast, or_false]

/-- A character that occurs more often on one side is in the list of that side. -/
theorem exists_listed {a : OccupancyHash} {m n : Multiset UInt8} (ha : Holds a m) :
    (∃ i < a.index_ptr, n.count (a.occupancy_index i) < m.count (a.occupancy_index i)) ↔
      ¬ m ≤ n := by
  rw [Multiset.le_iff_count]
  push Not
  constructor
  · rintro ⟨i, _, hc⟩
    exact ⟨_, hc⟩
  · rintro ⟨c, hc⟩
    obtain ⟨i, hi, rfl⟩ := (ha.listed c).mpr (Multiset.count_pos.mp (by omega))
    exact ⟨i, hi, hc⟩

/-- The verdict 1 is the one for a hash that is no part of the other. -/
theorem one_of_not_le {m n : Multiset UInt8} (h : ¬ m ≤ n) :
    ((1 : Int) = 0 ↔ m = n) ∧ ((1 : Int) < 0 ↔ m < n) := by
  constructor
  · exact ⟨fun h1 => absurd h1 (by decide), fun he => absurd he.le h⟩
  · exact ⟨fun h1 => absurd h1 (by decide), fun hlt => absurd hlt.le h⟩

/-- `Compare` decides the order of the multisets: 0 for equal ones, negative for a proper
part, and positive for anything else. -/
theorem compare_holds {a b : OccupancyHash} {m n : Multiset UInt8} (ha : Holds a m)
    (hb : Holds b n) (hm : Fits m) (hn : Fits n) :
    ∃ r, compare a b = .ok r ∧ (r = 0 ↔ m = n) ∧ (r < 0 ↔ m < n) := by
  have hpa := index_ptr_eq_card ha
  have hpb := index_ptr_eq_card hb
  unfold compare
  by_cases hptr : b.index_ptr < a.index_ptr
  · -- more distinct characters than the master: some character is not in it
    have hnot : ¬ m ≤ n := by
      intro hle
      have := Finset.card_le_card (Multiset.toFinset_subset.mpr (Multiset.subset_of_le hle))
      omega
    exact ⟨1, if_pos hptr, one_of_not_le hnot⟩
  rw [if_neg hptr]
  obtain ⟨s, hs, hpos, hneg⟩ := compareLoop_holds ha hb hm hn a.index_ptr le_rfl
    (if a.index_ptr < b.index_ptr then -1 else 0)
  rw [hs, bind_ok]
  by_cases hle : m ≤ n
  · have hall : ∀ i < a.index_ptr,
        m.count (a.occupancy_index i) ≤ n.count (a.occupancy_index i) := fun i _ =>
      Multiset.count_le_of_le _ hle
    obtain ⟨h1, h2, h3⟩ := hneg hall
    rw [compareRest_holds ha hb hm hn _ le_rfl]
    by_cases heq : m = n
    · subst heq
      have hs0 : s = 0 := by
        rcases h2 with h2 | ⟨i, _, hc⟩
        · rw [h2, if_neg (by omega)]
        · omega
      rw [if_pos hs0, if_neg (by simp)]
      exact ⟨0, rfl, by simp, by simp⟩
    · have hnle : ¬ n ≤ m := fun h => heq (le_antisymm hle h)
      have hr : (if s = 0 then Except.ok
          (if ∃ i < b.index_ptr, m.count (b.occupancy_index i) < n.count (b.occupancy_index i)
            then (-1 : Int) else 0) else Except.ok s : Run Int) = .ok (-1) := by
        rw [if_pos ((exists_listed hb).mpr hnle)]
        split_ifs with h0
        · rfl
        · rcases h1 with h1 | h1
          · rw [h1] at h0 ⊢
            split_ifs at h0 ⊢
            · rfl
            · exact absurd rfl h0
          · rw [h1]
      refine ⟨-1, hr, ?_, ?_⟩
      · exact ⟨fun h => absurd h (by decide), fun h => absurd h heq⟩
      · exact ⟨fun _ => lt_of_le_of_ne hle heq, fun _ => by decide⟩
  · have hs1 : s = 1 := hpos ((exists_listed ha).mpr hle)
    rw [hs1]
    exact ⟨1, by simp, one_of_not_le hle⟩

theorem isSubsetLoop_holds {a b : OccupancyHash} {m n : Multiset UInt8} (ha : Holds a m)
    (hb : Holds b n) (hm : Fits m) (hn : Fits n) (k : Nat) (hk : k ≤ a.index_ptr) :
    ∃ r, isSubsetLoop a b k = .ok r ∧ (r = true ↔
      ¬ ∃ i < k, n.count (a.occupancy_index i) < m.count (a.occupancy_index i)) := by
  induction k with
  | zero => exact ⟨true, rfl, by simp⟩
  | succ k ih =>
    rw [isSubsetLoop, ha.occupied hm (by omega), bind_ok]
    split_ifs with hgt
    · rw [hb.count_lt ha hn hm] at hgt
      exact ⟨false, rfl, by simpa using ⟨k, by omega, hgt⟩⟩
    · rw [hb.count_lt ha hn hm] at hgt
      obtain ⟨r, hr, hiff⟩ := ih (by omega)
      refine ⟨r, hr, hiff.trans (not_congr ?_)⟩
      rw [Nat.exists_lt_succ_right, or_iff_left hgt]

/-- `IsSubset` decides the pointwise order of the counts. -/
theorem isSubset_holds {a b : OccupancyHash} {m n : Multiset UInt8} (ha : Holds a m)
    (hb : Holds b n) (hm : Fits m) (hn : Fits n) :
    ∃ r, isSubset a b = .ok r ∧ (r = true ↔ m ≤ n) := by
  obtain ⟨r, hr, hiff⟩ := isSubsetLoop_holds ha hb hm hn a.index_ptr le_rfl
  exact ⟨r, hr, by rw [hiff, exists_listed ha, not_not]⟩

end OccupancyHash

end anagram
