-- What a hash means (occupancy_hash.h). A hash with a proper list stands for a
-- multiset of characters, the comparisons decide the order of two of them, and
-- every sequence of the operations builds the multiset that it denotes.
import Anagram.CharTables

open outcome

namespace anagram

namespace OccupancyHash

/-! ## The list designates the counts -/

/-- The list has each character with a count exactly once, and no other entries. No count is
negative, as one that has wrapped would be. -/
structure Consistent (h : OccupancyHash) : Prop where
  listed_once : ∀ c, h.char_count c ≠ 0 → ∃! i, i < h.index_ptr ∧ h.occupied i = .ok c
  entry_counts : ∀ i < h.index_ptr, ∃ c, h.occupied i = .ok c ∧ h.char_count c ≠ 0
  nonneg : ∀ c, 0 ≤ h.char_count c

/-- The characters of the list, each as often as its cell says. -/
def contents (h : OccupancyHash) : Multiset UInt8 :=
  ∑ c ∈ (Finset.range h.index_ptr).image h.occupancy_index,
    Multiset.replicate (h.char_count c).toInt.toNat c

theorem occupied_eq_ok {h : OccupancyHash} {i : Nat} {c : UInt8} (hi : h.occupied i = .ok c) :
    i < kMaxCharsPerWord ∧ c < 128 ∧ h.occupancy_index i = c := by
  unfold occupied at hi
  split_ifs at hi with hlt
  obtain ⟨hc, rfl⟩ := cell_eq_ok hi
  exact ⟨hlt, hc, rfl⟩

theorem ofNat_toNat {x : Int8} (hx : 0 ≤ x) : Int8.ofNat x.toInt.toNat = x := by
  rw [Int8.le_iff_toInt_le, Int8.toInt_zero] at hx
  have hle : x.toInt ≤ 127 := Int8.toInt_le x
  rw [← Int8.toInt_inj, Int8.toInt_ofNat_of_lt (by omega)]
  omega

section
variable {h : OccupancyHash} (hc : Consistent h)
include hc

theorem Consistent.ptr_le : h.index_ptr ≤ kMaxCharsPerWord := by
  by_contra hlt
  obtain ⟨c, hi, -⟩ := hc.entry_counts (h.index_ptr - 1) (by omega)
  have := (occupied_eq_ok hi).1
  omega

theorem Consistent.listed (c : UInt8) :
    (∃ i < h.index_ptr, h.occupancy_index i = c) ↔ h.char_count c ≠ 0 := by
  constructor
  · rintro ⟨i, hi, rfl⟩
    obtain ⟨c, hoc, hne⟩ := hc.entry_counts i hi
    obtain ⟨-, -, rfl⟩ := occupied_eq_ok hoc
    exact hne
  · intro hne
    obtain ⟨i, ⟨hi, hoc⟩, -⟩ := hc.listed_once c hne
    exact ⟨i, hi, (occupied_eq_ok hoc).2.2⟩

theorem Consistent.count_contents (c : UInt8) :
    (contents h).count c = (h.char_count c).toInt.toNat := by
  unfold contents
  rw [Multiset.count_sum']
  simp only [Multiset.count_replicate]
  rw [Finset.sum_ite_eq']
  split_ifs with hmem
  · rfl
  · have hzero : h.char_count c = 0 := by
      by_contra hne
      obtain ⟨i, hi, he⟩ := (hc.listed c).mpr hne
      exact hmem (Finset.mem_image.mpr ⟨i, Finset.mem_range.mpr hi, he⟩)
    rw [hzero]
    rfl

theorem Consistent.mem_contents (c : UInt8) : c ∈ contents h ↔ h.char_count c ≠ 0 := by
  have hnonneg := hc.nonneg c
  rw [← Multiset.count_pos, hc.count_contents, Ne, ← Int8.toInt_inj, Int8.toInt_zero]
  rw [Int8.le_iff_toInt_le, Int8.toInt_zero] at hnonneg
  omega

/-- A consistent hash holds its contents. -/
theorem Consistent.holds : Holds h (contents h) where
  counts c := by rw [hc.count_contents, ofNat_toNat (hc.nonneg c)]
  listed c := (hc.listed c).trans (hc.mem_contents c).symm
  inj i hi j hj hij := by
    obtain ⟨c, hci, hne⟩ := hc.entry_counts i hi
    obtain ⟨d, hdj, -⟩ := hc.entry_counts j hj
    have hcd : c = d := by
      rw [← (occupied_eq_ok hci).2.2, hij, (occupied_eq_ok hdj).2.2]
    subst hcd
    exact (hc.listed_once c hne).unique ⟨hi, hci⟩ ⟨hj, hdj⟩

theorem Consistent.fits : Fits (contents h) where
  ascii c hmem := by
    obtain ⟨i, ⟨-, hi⟩, -⟩ := hc.listed_once c ((hc.mem_contents c).mp hmem)
    exact (occupied_eq_ok hi).2.1
  count_le c := by
    have hle : (h.char_count c).toInt ≤ 127 := Int8.toInt_le _
    rw [hc.count_contents]
    omega
  distinct_le := index_ptr_eq_card hc.holds ▸ hc.ptr_le

end

/-! ## Sequences of operations -/

theorem addLoop_linked {b : OccupancyHash} {n : Multiset UInt8} (hb : Holds b n) (hn : Fits n)
    (k : Nat) (hk : k ≤ b.index_ptr) {h h' : OccupancyHash} {m : Multiset UInt8} (hm : Holds h m)
    (hf : Fits (m + listedPart b n k)) (hl : Linked h) (hrun : h.addLoop b k = .ok h') :
    Linked h' := by
  induction k generalizing h m with
  | zero =>
    cases hrun
    exact hl
  | succ k ih =>
    rw [listedPart_succ hb (by omega), ← add_assoc] at hf
    have hpos : 0 < n.count (b.occupancy_index k) :=
      Multiset.count_pos.mpr (hb.mem_listed (by omega))
    obtain ⟨h₁, hb₁, hm₁⟩ := holds_bump hpos hm (hf.mono (Multiset.le_add_right _ _))
    have hzero := hm.count_eq_zero (hf.mono ((Multiset.le_add_right _ _).trans
      (Multiset.le_add_right _ _))) (b.occupancy_index k)
    rw [addLoop, hb.occupied hn (by omega), bind_ok, hb.counts, hb₁, bind_ok] at hrun
    exact ih (by omega) hm₁ hf (linked_bump hm hzero hl hb₁) hrun

theorem addAssign_linked {h b h' : OccupancyHash} {m n : Multiset UInt8} (hm : Holds h m)
    (hb : Holds b n) (hf : Fits (m + n)) (hl : Linked h) (hrun : h.addAssign b = .ok h') :
    Linked h' := by
  have hall := listedPart_all hb
  refine addLoop_linked hb (hf.mono (Multiset.le_add_left _ _)) b.index_ptr le_rfl hm ?_ hl hrun
  rw [hall]
  exact hf

/-- The hash can be cleared, it holds the characters, and each entry leads back to its cell. -/
structure Meets (h : OccupancyHash) (m : Multiset UInt8) : Prop where
  tidy : Tidy h
  holds : Holds h m
  linked : Linked h

theorem meets_new : Meets new 0 := ⟨tidy_new, holds_new, linked_new⟩

/-- A sequence of operations on a default-constructed hash, where the other side of `+=` has a
sequence of its own. -/
inductive Ops
  | new
  | clear (e : Ops)
  | count (e : Ops) (word : Text)
  | add (e b : Ops)

namespace Ops

/-- The hash that the operations leave. -/
def eval : Ops → Run OccupancyHash
  | .new => .ok OccupancyHash.new
  | .clear e => do
    let h ← e.eval
    h.clear
  | .count e word => do
    let h ← e.eval
    h.getCharCountMap word
  | .add e b => do
    let h ← e.eval
    let b ← b.eval
    h.addAssign b

/-- The characters that the operations put together. -/
def denote : Ops → Multiset UInt8
  | .new => 0
  | .clear _ => 0
  | .count e word => e.denote + letters word
  | .add e b => e.denote + b.denote

/-- All strings are over the bytes 1 to 127, and every hash on the way keeps at most 40 distinct
characters, and at most 127 of each. -/
def Within : Ops → Prop
  | .new => True
  | .clear e => e.Within
  | .count e word => e.Within ∧ Ascii word ∧
    (e.denote + letters word).toFinset.card ≤ kMaxCharsPerWord ∧
    ∀ c, (e.denote + letters word).count c ≤ 127
  | .add e b => e.Within ∧ b.Within ∧
    (e.denote + b.denote).toFinset.card ≤ kMaxCharsPerWord ∧
    ∀ c, (e.denote + b.denote).count c ≤ 127

theorem ascii_denote {e : Ops} (he : e.Within) : ∀ c ∈ e.denote, c < 128 := by
  induction e with
  | new =>
    intro c hc
    exact absurd hc (Multiset.notMem_zero c)
  | clear e _ =>
    intro c hc
    exact absurd hc (Multiset.notMem_zero c)
  | count e word ih =>
    obtain ⟨he, hword, -⟩ := he
    intro c hc
    rcases Multiset.mem_add.mp hc with hc | hc
    · exact ih he c hc
    · exact (hword c (mem_letters.mp hc).1).2
  | add e b ihe ihb =>
    obtain ⟨he, hb, -⟩ := he
    intro c hc
    rcases Multiset.mem_add.mp hc with hc | hc
    · exact ihe he c hc
    · exact ihb hb c hc

theorem fits_denote {e : Ops} (he : e.Within) : Fits e.denote := by
  cases e with
  | new => exact ⟨by simp [denote], by simp [denote], by simp [denote]⟩
  | clear e => exact ⟨by simp [denote], by simp [denote], by simp [denote]⟩
  | count e word => exact ⟨ascii_denote he, he.2.2.2, he.2.2.1⟩
  | add e b => exact ⟨ascii_denote he, he.2.2.2, he.2.2.1⟩

/-- Each operation keeps the invariant, and adds what it denotes. -/
theorem eval_meets {e : Ops} (he : e.Within) : ∃ h, e.eval = .ok h ∧ Meets h e.denote := by
  induction e with
  | new => exact ⟨_, rfl, meets_new⟩
  | clear e ih =>
    obtain ⟨h, hh, hmeets⟩ := ih he
    refine ⟨OccupancyHash.new, ?_, meets_new⟩
    rw [eval, hh, bind_ok]
    exact clear_tidy hmeets.tidy
  | count e word ih =>
    have hfits : Fits (e.denote + letters word) := fits_denote he
    obtain ⟨he, hword, -⟩ := he
    obtain ⟨h, hh, hmeets⟩ := ih he
    obtain ⟨h', hh', hholds⟩ := getCharCountMap_holds word hword hmeets.holds hfits
    refine ⟨h', ?_, tidy_getCharCountMap word hmeets.tidy hh', hholds,
      getCharCountMap_linked word hword hmeets.holds hfits hmeets.linked hh'⟩
    rw [eval, hh, bind_ok, hh']
  | add e b ihe ihb =>
    have hfits : Fits (e.denote + b.denote) := fits_denote he
    obtain ⟨he, hb, -⟩ := he
    obtain ⟨h, hh, hmeets⟩ := ihe he
    obtain ⟨g, hg, hother⟩ := ihb hb
    obtain ⟨h', hh', hholds⟩ := addAssign_holds hmeets.holds hother.holds hfits
    refine ⟨h', ?_, tidy_addAssign hmeets.tidy hh', hholds,
      addAssign_linked hmeets.holds hother.holds hfits hmeets.linked hh'⟩
    rw [eval, hh, bind_ok, hg, bind_ok, hh']

end Ops

/-- The tables represent the multiset: the list has exactly the characters with a count, each
once, each of them leads back to its place, all other cells are zero, and the counts are those of
the multiset. -/
structure Represents (h : OccupancyHash) (m : Multiset UInt8) : Prop where
  listed : ∀ c, (∃ i < h.index_ptr, h.occupancy_index i = c) ↔ h.char_count c ≠ 0
  once : ∀ i < h.index_ptr, ∀ j < h.index_ptr, h.occupancy_index i = h.occupancy_index j → i = j
  placed : ∀ i < h.index_ptr, (h.index_index (h.occupancy_index i)).toInt = i
  list_zero : ∀ i, h.index_ptr ≤ i → h.occupancy_index i = 0
  place_zero : ∀ c, h.char_count c = 0 → h.index_index c = 0
  counts : ∀ c, (h.char_count c).toInt = m.count c

theorem Meets.represents {h : OccupancyHash} {m : Multiset UInt8} (hm : Meets h m)
    (hf : Fits m) : Represents h m := by
  have hlisted : ∀ c, (∃ i < h.index_ptr, h.occupancy_index i = c) ↔ h.char_count c ≠ 0 := by
    intro c
    rw [hm.holds.listed, Ne, hm.holds.count_eq_zero hf, not_not]
  refine ⟨hlisted, hm.holds.inj, fun i hi => ?_, hm.tidy.rest_zero, fun c hc => ?_, fun c => ?_⟩
  · have hle := hm.tidy.ptr_le
    unfold kMaxCharsPerWord at hle
    rw [hm.linked i hi, Int8.toInt_ofNat_of_lt (by omega)]
  · by_contra hne
    exact (hlisted c).mp (hm.tidy.placed c hne) hc
  · have hle := hf.count_le c
    rw [hm.holds.counts, Int8.toInt_ofNat_of_lt (by omega)]

/-- A hash that the operations have built is consistent. -/
theorem Meets.consistent {h : OccupancyHash} {m : Multiset UInt8} (hm : Meets h m)
    (hf : Fits m) : Consistent h := by
  have hlisted := (hm.represents hf).listed
  refine ⟨fun c hc => ?_, fun i hi => ?_, fun c => ?_⟩
  · obtain ⟨i, hi, rfl⟩ := (hlisted c).mpr hc
    refine ⟨i, ⟨hi, hm.holds.occupied hf hi⟩, ?_⟩
    rintro j ⟨hj, hoc⟩
    exact hm.holds.inj j hj i hi (occupied_eq_ok hoc).2.2
  · exact ⟨_, hm.holds.occupied hf hi, (hlisted _).mp ⟨i, hi, rfl⟩⟩
  · rw [Int8.le_iff_toInt_le, Int8.toInt_zero, (hm.represents hf).counts]
    exact Int.natCast_nonneg _

theorem Ops.within_parts {u v : Text} (h : (Ops.count .new (u ++ bytes " " ++ v)).Within) :
    (Ops.add (.count .new v) (.count .new u)).Within := by
  have hwhole := Ops.fits_denote h
  obtain ⟨-, hascii, -⟩ := h
  have hsum : letters v + letters u = letters (u ++ bytes " " ++ v) := by
    have hspace : letters (bytes " ") = 0 := by decide
    rw [letters_append, letters_append, hspace, add_zero, add_comm]
  have hfits : Fits (letters v + letters u) := by
    rw [hsum, ← zero_add (letters _)]
    exact hwhole
  have hv := hfits.mono (Multiset.le_add_right _ _)
  have hu := hfits.mono (Multiset.le_add_left _ _)
  simp only [Within, denote, zero_add, true_and]
  exact ⟨⟨fun c hc => hascii c (by simp [hc]), hv.distinct_le, hv.count_le⟩,
    ⟨fun c hc => hascii c (by simp [hc]), hu.distinct_le, hu.count_le⟩,
    hfits.distinct_le, hfits.count_le⟩

/-- Every sequence of operations builds a hash that represents what the sequence denotes, and
`clear` after it restores the default-constructed state. The count of two words with a space
between them is the sum of their counts. -/
theorem the_operations_represent_what_they_denote {e : Ops} (he : e.Within) :
    (∃ h, e.eval = .ok h ∧ Represents h e.denote) ∧ (Ops.clear e).eval = .ok new ∧
    ∀ u v, (Ops.count .new (u ++ bytes " " ++ v)).Within →
      ∃ h h', (Ops.count .new (u ++ bytes " " ++ v)).eval = .ok h ∧
        (Ops.add (.count .new v) (.count .new u)).eval = .ok h' ∧
        h.char_count = h'.char_count := by
  obtain ⟨h, hh, hmeets⟩ := Ops.eval_meets he
  refine ⟨⟨h, hh, hmeets.represents (Ops.fits_denote he)⟩, ?_, fun u v huv => ?_⟩
  · rw [Ops.eval, hh, bind_ok]
    exact clear_tidy hmeets.tidy
  · obtain ⟨g, hg, hwhole⟩ := Ops.eval_meets huv
    obtain ⟨g', hg', hparts⟩ := Ops.eval_meets (Ops.within_parts huv)
    refine ⟨g, g', hg, hg', funext fun c => ?_⟩
    have hspace : letters (bytes " ") = 0 := by decide
    rw [hwhole.holds.counts, hparts.holds.counts]
    simp only [Ops.denote, letters_append, hspace, zero_add, add_comm]

theorem Ops.within_of_card_le {m : Multiset UInt8} (hcard : m.card ≤ 40) :
    m.toFinset.card ≤ kMaxCharsPerWord ∧ ∀ c, m.count c ≤ 127 :=
  ⟨(Multiset.toFinset_card_le m).trans hcard,
    fun c => (Multiset.count_le_card c m).trans (hcard.trans (by decide))⟩

theorem tea_and_eat_again_represent_six_letters :
    (∃ h, (Ops.add (.count .new (bytes "tea")) (.count (.clear .new) (bytes "eat"))).eval = .ok h ∧
      Represents h (Ops.add (.count .new (bytes "tea"))
        (.count (.clear .new) (bytes "eat"))).denote) ∧
    (Ops.clear (.add (.count .new (bytes "tea"))
      (.count (.clear .new) (bytes "eat")))).eval = .ok new ∧
    ∀ u v, (Ops.count .new (u ++ bytes " " ++ v)).Within →
      ∃ h h', (Ops.count .new (u ++ bytes " " ++ v)).eval = .ok h ∧
        (Ops.add (.count .new v) (.count .new u)).eval = .ok h' ∧
        h.char_count = h'.char_count :=
  the_operations_represent_what_they_denote
    ⟨⟨trivial, by decide +kernel, Ops.within_of_card_le (by decide)⟩,
      ⟨trivial, by decide +kernel, Ops.within_of_card_le (by decide)⟩,
      Ops.within_of_card_le (by decide)⟩

/-! ## What the comparisons decide -/

section
variable {a b : OccupancyHash} (ha : Consistent a) (hb : Consistent b)
include ha hb

theorem contents_le_iff : contents a ≤ contents b ↔ ∀ c, a.char_count c ≤ b.char_count c := by
  rw [Multiset.le_iff_count]
  apply forall_congr'
  intro c
  rw [← not_lt, ← hb.holds.count_lt ha.holds hb.fits ha.fits, Int8.not_lt]

theorem contents_eq_iff : contents a = contents b ↔ ∀ c, a.char_count c = b.char_count c := by
  constructor
  · intro heq c
    rw [ha.holds.counts, hb.holds.counts, heq]
  · intro heq
    ext c
    rw [ha.count_contents, hb.count_contents, heq]

/-- `Compare` and `IsSubset` decide how two consistent hashes compare, and agree with each
other. -/
theorem compare_and_isSubset_decide_the_counts :
    ∃ r s, compare a b = .ok r ∧ isSubset a b = .ok s ∧
      (r = 0 ↔ ∀ c, a.char_count c = b.char_count c) ∧
      (0 < r ↔ ∃ c, b.char_count c < a.char_count c) ∧
      (r < 0 ↔ (∀ c, a.char_count c ≤ b.char_count c) ∧
        ¬ ∀ c, a.char_count c = b.char_count c) ∧
      (s = true ↔ r ≤ 0) := by
  obtain ⟨r, hr, hzero, hneg⟩ := compare_holds ha.holds hb.holds ha.fits hb.fits
  obtain ⟨s, hs, hsub⟩ := isSubset_holds ha.holds hb.holds ha.fits hb.fits
  have hle : r ≤ 0 ↔ contents a ≤ contents b := by
    rw [le_iff_lt_or_eq, hzero, hneg, ← le_iff_lt_or_eq]
  refine ⟨r, s, hr, hs, ?_, ?_, ?_, ?_⟩
  · rw [hzero, contents_eq_iff ha hb]
  · rw [← not_le, hle, contents_le_iff ha hb]
    push Not
    simp only [Int8.not_le]
  · rw [hneg, lt_iff_le_and_ne, contents_le_iff ha hb, Ne, contents_eq_iff ha hb]
  · rw [hsub, hle]

end

theorem compare_and_isSubset_decide_tea_and_teas :
    ∃ a b, (Ops.count .new (bytes "tea")).eval = .ok a ∧
      (Ops.count .new (bytes "teas")).eval = .ok b ∧
      ∃ r s, compare a b = .ok r ∧ isSubset a b = .ok s ∧
        (r = 0 ↔ ∀ c, a.char_count c = b.char_count c) ∧
        (0 < r ↔ ∃ c, b.char_count c < a.char_count c) ∧
        (r < 0 ↔ (∀ c, a.char_count c ≤ b.char_count c) ∧
          ¬ ∀ c, a.char_count c = b.char_count c) ∧
        (s = true ↔ r ≤ 0) := by
  have htea : (Ops.count .new (bytes "tea")).Within :=
    ⟨trivial, by decide +kernel, Ops.within_of_card_le (by decide)⟩
  have hteas : (Ops.count .new (bytes "teas")).Within :=
    ⟨trivial, by decide +kernel, Ops.within_of_card_le (by decide)⟩
  obtain ⟨a, ha, hma⟩ := Ops.eval_meets htea
  obtain ⟨b, hb, hmb⟩ := Ops.eval_meets hteas
  exact ⟨a, b, ha, hb, compare_and_isSubset_decide_the_counts
    (hma.consistent (Ops.fits_denote htea)) (hmb.consistent (Ops.fits_denote hteas))⟩

end OccupancyHash

end anagram
