-- AddChar, called on the characters of a word one by one (occupancy_hash.h). It takes
-- the place 0 for no place, and for a character with a place it raises the entry of the
-- list there. So the hash is the one of GetCharCountMap only when no character repeats.
import Anagram.HashMeaning
import Anagram.MasterCount

open outcome

namespace anagram

namespace OccupancyHash

/-- `AddChar` on the characters of a word, one by one. -/
def addChars (h : OccupancyHash) (w : Text) : Run OccupancyHash := w.foldlM addChar h

/-! ## One character -/

theorem sizeOfPlace_eq_zero (place : Int8) : sizeOfPlace place = 0 ↔ place = 0 := by
  have hle : place.toInt ≤ 127 := Int8.toInt_le place
  have hge : -128 ≤ place.toInt := Int8.le_toInt place
  unfold sizeOfPlace
  rw [← Int8.toInt_inj, Int8.toInt_zero]
  omega

theorem sizeOfPlace_ofNat {i : Nat} (hi : i ≤ 127) : sizeOfPlace (Int8.ofNat i) = i := by
  unfold sizeOfPlace
  rw [Int8.toInt_ofNat_of_lt (by omega)]
  omega

theorem addChar_unplaced {h : OccupancyHash} {c : UInt8} (hc : c < 128)
    (hplace : h.index_index c = 0) : h.addChar c = h.occupy c (h.char_count c + 1) := by
  unfold addChar
  rw [cell_of_lt hc, bind_ok]
  exact if_neg (not_not.mpr ((sizeOfPlace_eq_zero _).mpr hplace))

theorem addChar_placed {h : OccupancyHash} {c : UInt8} {i : Nat} (hc : c < 128) (hi : i ≠ 0)
    (hlt : i < kMaxCharsPerWord) (hplace : h.index_index c = Int8.ofNat i) :
    h.addChar c = .ok { h with
      occupancy_index := Function.update h.occupancy_index i (h.occupancy_index i + 1)
      char_count := Function.update h.char_count c (h.char_count c + 1) } := by
  have hsize : sizeOfPlace (h.index_index c) = i := by
    unfold kMaxCharsPerWord at hlt
    rw [hplace, sizeOfPlace_ofNat (by omega)]
  unfold addChar
  rw [cell_of_lt hc, bind_ok]
  simp only [hsize]
  rw [if_pos hi, if_pos hlt]

/-- What a call that ends does to every hash. -/
theorem addChar_eq_ok {h h' : OccupancyHash} {c : UInt8} (hrun : h.addChar c = .ok h') :
    h'.char_count = Function.update h.char_count c (h.char_count c + 1) ∧
      (∀ e, e ≠ c → h'.index_index e = h.index_index e) ∧
      h'.index_ptr = if h.index_index c = 0 then h.index_ptr + 1 else h.index_ptr := by
  obtain ⟨d, hd, hbody⟩ := bind_eq_ok.mp hrun
  obtain ⟨-, rfl⟩ := cell_eq_ok hd
  simp only [ne_eq, sizeOfPlace_eq_zero, occupy, ite_not] at hbody
  split_ifs at hbody with hplace hroom hroom
  · cases hbody
    exact ⟨rfl, fun e he => Function.update_of_ne he _ _, (if_pos hplace).symm⟩
  · cases hbody
    exact ⟨rfl, fun e _ => rfl, (if_neg hplace).symm⟩

/-- The turn of `GetCharCountMap` leaves the cells of the other characters as they are. -/
theorem bump_other {h h' : OccupancyHash} {c e : UInt8} {n : Int8} (he : e ≠ c)
    (hb : h.bump c n = .ok h') :
    h'.char_count e = h.char_count e ∧ h'.index_index e = h.index_index e := by
  unfold bump occupy at hb
  split_ifs at hb
  · cases hb
    exact ⟨Function.update_of_ne he _ _, Function.update_of_ne he _ _⟩
  · cases hb
    exact ⟨Function.update_of_ne he _ _, rfl⟩

/-! ## No character repeats -/

theorem addChar_eq_bump {h : OccupancyHash} {c : UInt8} (hc : c < 128)
    (hcount : h.char_count c = 0) (hplace : h.index_index c = 0) :
    h.addChar c = h.bump c 1 := by
  rw [addChar_unplaced hc hplace, hcount, bump, if_pos hcount]
  rfl

theorem getCharCountMap_cons {h : OccupancyHash} {c : UInt8} {w : Text} (hpos : 0 < c)
    (hlt : c < 128) (hsp : c ≠ 0x20) :
    h.getCharCountMap (c :: w) = (h.bump c 1 >>= fun h => h.getCharCountMap w) := by
  rw [getCharCountMap, if_neg (UInt8.pos_iff_ne_zero.mp hpos), if_neg hsp, cell_of_lt hlt, bind_ok]

/-- On characters that are all new and different, `AddChar` does what `GetCharCountMap` does. -/
theorem addChars_eq_getCharCountMap (w : Text) (hw : Ascii w) (hsp : 0x20 ∉ w) (hn : w.Nodup)
    {h : OccupancyHash} (hfresh : ∀ c ∈ w, h.char_count c = 0 ∧ h.index_index c = 0) :
    h.addChars w = h.getCharCountMap w := by
  induction w generalizing h with
  | nil => rfl
  | cons c w ih =>
    obtain ⟨hpos, hlt⟩ := hw c List.mem_cons_self
    obtain ⟨hcount, hplace⟩ := hfresh c List.mem_cons_self
    obtain ⟨hc, hn⟩ := List.nodup_cons.mp hn
    have hspace : c ≠ 0x20 := fun he => hsp (by rw [he]; exact List.mem_cons_self)
    rw [getCharCountMap_cons hpos hlt hspace, addChars, List.foldlM_cons,
      addChar_eq_bump hlt hcount hplace]
    cases hb : h.bump c 1 with
    | error e => rfl
    | ok h₁ =>
      rw [bind_ok, bind_ok]
      apply ih (fun d hd => hw d (List.mem_cons_of_mem _ hd)) (fun hm => hsp (by simp [hm])) hn
      intro d hd
      have hne : d ≠ c := by
        rintro rfl
        exact hc hd
      obtain ⟨hcounts, hplaces⟩ := bump_other hne hb
      rw [hcounts, hplaces]
      exact hfresh d (List.mem_cons_of_mem _ hd)

/-! ## A character comes back -/

theorem Meets.bump {d : OccupancyHash} {m : Multiset UInt8} {c : UInt8} (hc : c < 128)
    (hf : Fits (c ::ₘ m)) (hm : Meets d m) :
    ∃ d', d.bump c 1 = .ok d' ∧ Meets d' (c ::ₘ m) := by
  have hsum : m + Multiset.replicate 1 c = c ::ₘ m := by
    rw [Multiset.replicate_one, add_comm, Multiset.singleton_add]
  have hzero := hm.holds.count_eq_zero (hf.mono (Multiset.le_cons_self m c)) c
  rw [← hsum] at hf ⊢
  obtain ⟨d', hb, hholds⟩ := holds_bump (k := 1) (by omega) hm.holds hf
  exact ⟨d', hb, tidy_bump hc hm.tidy hb, hholds, linked_bump hm.holds hzero hm.linked hb⟩

/-- A character is new to the tables, or it has its entry. -/
theorem Meets.new_or_listed {d : OccupancyHash} {m : Multiset UInt8} (hf : Fits m)
    (hm : Meets d m) (c : UInt8) :
    (c ∉ m ∧ d.char_count c = 0 ∧ d.index_index c = 0) ∨
      (c ∈ m ∧ d.char_count c ≠ 0 ∧
        ∃ i < d.index_ptr, d.occupancy_index i = c ∧ d.index_index c = Int8.ofNat i) := by
  have hzero := hm.holds.count_eq_zero hf c
  by_cases hc : c ∈ m
  · obtain ⟨i, hi, rfl⟩ := (hm.holds.listed c).mpr hc
    exact Or.inr ⟨hc, fun he => hzero.mp he hc, i, hi, rfl, hm.linked i hi⟩
  · refine Or.inl ⟨hc, hzero.mpr hc, ?_⟩
    by_contra hplace
    exact hc ((hm.holds.listed c).mp (hm.tidy.placed c hplace))

/-- The first character has not come back. All is as `GetCharCountMap` leaves it, but each entry
has moved on from its character by the times that the character has come back. -/
structure Drifted (h d : OccupancyHash) (m : Multiset UInt8) : Prop where
  index_index : h.index_index = d.index_index
  index_ptr : h.index_ptr = d.index_ptr
  entries : ∀ i < d.index_ptr, h.occupancy_index i =
    d.occupancy_index i + UInt8.ofNat (m.count (d.occupancy_index i) - 1)
  first_once : 0 < d.index_ptr → m.count (d.occupancy_index 0) = 1

theorem drifted_new : Drifted new new 0 :=
  ⟨rfl, rfl, fun i hi => absurd hi (Nat.not_lt_zero i), fun h => absurd h (Nat.not_lt_zero 0)⟩

section
variable {h h' d d' : OccupancyHash} {m : Multiset UInt8} {c : UInt8}

/-- A new character gets the same entry in both hashes. -/
theorem Drifted.occupy {n n' : Int8} (hdr : Drifted h d m) (hm : Holds d m) (hc : c ∉ m)
    (hrun : h.occupy c n = .ok h') (hcount : d.occupy c n' = .ok d') :
    Drifted h' d' (c ::ₘ m) := by
  unfold OccupancyHash.occupy at hrun hcount
  split_ifs at hrun hcount
  cases hrun
  cases hcount
  have hother : ∀ i < d.index_ptr, (c ::ₘ m).count (d.occupancy_index i) =
      m.count (d.occupancy_index i) := by
    intro i hi
    apply Multiset.count_cons_of_ne
    rintro rfl
    exact hc (hm.mem_listed hi)
  have hone : (c ::ₘ m).count c = 1 := by
    rw [Multiset.count_cons_self, Multiset.count_eq_zero_of_notMem hc]
  refine ⟨?_, ?_, fun i hi => ?_, fun _ => ?_⟩
  · dsimp only
    rw [hdr.index_index, hdr.index_ptr]
  · exact congrArg (· + 1) hdr.index_ptr
  · dsimp only at hi ⊢
    rw [hdr.index_ptr]
    by_cases hlast : i = d.index_ptr
    · rw [hlast, Function.update_self, Function.update_self, hone]
      exact (add_zero c).symm
    · rw [Function.update_of_ne hlast, Function.update_of_ne hlast, hother i (by omega)]
      exact hdr.entries i (by omega)
  · dsimp only
    by_cases hfirst : 0 = d.index_ptr
    · rw [hfirst, Function.update_self, hone]
    · rw [Function.update_of_ne hfirst, hother 0 (by omega)]
      exact hdr.first_once (by omega)

/-- A character that is not the first one moves its entry on by one when it comes back. -/
theorem Drifted.raise {i : Nat} {n n' : UInt8 → Int8} (hdr : Drifted h d m) (hm : Holds d m)
    (hi : i < d.index_ptr) (hne : i ≠ 0) :
    Drifted
      { h with
        occupancy_index := Function.update h.occupancy_index i (h.occupancy_index i + 1)
        char_count := n }
      { d with char_count := n' } (d.occupancy_index i ::ₘ m) := by
  have hother : ∀ j < d.index_ptr, j ≠ i →
      (d.occupancy_index i ::ₘ m).count (d.occupancy_index j) =
        m.count (d.occupancy_index j) := by
    intro j hj hji
    apply Multiset.count_cons_of_ne
    intro he
    exact hji (hm.inj j hj i hi he)
  refine ⟨hdr.index_index, hdr.index_ptr, fun j hj => ?_, fun hpos => ?_⟩
  · dsimp only at hj ⊢
    by_cases hji : j = i
    · have hcount := Multiset.count_pos.mpr (hm.mem_listed hi)
      obtain ⟨k, hk⟩ : ∃ k, m.count (d.occupancy_index i) = k + 1 :=
        ⟨_, (Nat.sub_add_cancel hcount).symm⟩
      have hentry := hdr.entries i hi
      rw [hk, Nat.add_sub_cancel] at hentry
      rw [hji, Function.update_self, Multiset.count_cons_self, hk, Nat.add_sub_cancel, hentry,
        UInt8.ofNat_add, add_assoc]
      rfl
    · rw [Function.update_of_ne hji, hother j hj hji]
      exact hdr.entries j hj
  · dsimp only at hpos ⊢
    rw [hother 0 hpos hne.symm]
    exact hdr.first_once hpos

/-- The hash `h` of `AddChar` beside the hash `d` of `GetCharCountMap`, for the same characters.
The counts are the same. If the first character has come back, it is listed again. -/
structure Beside (h d : OccupancyHash) (m : Multiset UInt8) : Prop where
  char_count : h.char_count = d.char_count
  unplaced : ∀ e ∉ m, h.index_index e = 0
  drifted_or_longer : Drifted h d m ∨ d.index_ptr < h.index_ptr

theorem beside_new : Beside new new 0 := ⟨rfl, fun _ _ => rfl, Or.inl drifted_new⟩

/-- The list stays longer: a new character makes an entry in both. -/
theorem Beside.longer (hm : Meets d m) (hf : Fits m) (hb : Beside h d m)
    (hlong : d.index_ptr < h.index_ptr) (hrun : h.addChar c = .ok h')
    (hcount : d.bump c 1 = .ok d') : d'.index_ptr < h'.index_ptr := by
  rw [(addChar_eq_ok hrun).2.2, index_ptr_bump hcount]
  rcases hm.new_or_listed hf c with ⟨hc, hzero, -⟩ | ⟨-, hne, -⟩
  · rw [if_pos (hb.unplaced c hc), if_pos hzero]
    omega
  · rw [if_neg hne]
    split_ifs
    · omega
    · exact hlong

/-- While the list has not grown longer, it drifts, until the first character comes back. -/
theorem Drifted.step (hc : c < 128) (hm : Meets d m) (hf : Fits m) (hdr : Drifted h d m)
    (hrun : h.addChar c = .ok h') (hcount : d.bump c 1 = .ok d') :
    Drifted h' d' (c ::ₘ m) ∨ d'.index_ptr < h'.index_ptr := by
  rcases hm.new_or_listed hf c with ⟨hnew, hzero, hplace⟩ | ⟨-, hne, i, hi, rfl, hplace⟩
  · rw [← hdr.index_index] at hplace
    rw [addChar_unplaced hc hplace] at hrun
    rw [bump, if_pos hzero] at hcount
    exact Or.inl (hdr.occupy hm.holds hnew hrun hcount)
  · by_cases hfirst : i = 0
    · -- place 0 reads as no place, so the first character is listed again
      subst hfirst
      right
      have hnone : h.index_index (d.occupancy_index 0) = 0 := by
        rw [hdr.index_index, hplace]
        rfl
      rw [(addChar_eq_ok hrun).2.2, index_ptr_bump hcount, if_pos hnone, if_neg hne, hdr.index_ptr]
      omega
    · left
      rw [← hdr.index_index] at hplace
      rw [addChar_placed hc hfirst (lt_of_lt_of_le hi hm.tidy.ptr_le) hplace] at hrun
      rw [bump, if_neg hne] at hcount
      cases hrun
      cases hcount
      exact hdr.raise hm.holds hi hfirst

theorem Beside.step (hc : c < 128) (hm : Meets d m) (hf : Fits m) (hb : Beside h d m)
    (hrun : h.addChar c = .ok h') (hcount : d.bump c 1 = .ok d') :
    Beside h' d' (c ::ₘ m) := by
  obtain ⟨hcounts, hplaces, -⟩ := addChar_eq_ok hrun
  refine ⟨?_, fun e he => ?_, ?_⟩
  · rw [hcounts, char_count_bump hcount, hb.char_count]
  · rw [Multiset.mem_cons, not_or] at he
    rw [hplaces e he.1]
    exact hb.unplaced e he.2
  · rcases hb.drifted_or_longer with hdr | hlong
    · exact hdr.step hc hm hf hrun hcount
    · exact Or.inr (hb.longer hm hf hlong hrun hcount)

end

/-- In every run of `AddChar` that ends, the two hashes stay beside each other. -/
theorem addChars_beside (w : Text) (hw : Ascii w) (hsp : 0x20 ∉ w) {h h' d : OccupancyHash}
    {m : Multiset UInt8} (hf : Fits (m + w)) (hm : Meets d m) (hb : Beside h d m)
    (hrun : h.addChars w = .ok h') :
    ∃ d', d.getCharCountMap w = .ok d' ∧ Meets d' (m + w) ∧ Beside h' d' (m + w) := by
  induction w generalizing h d m with
  | nil =>
    cases hrun
    rw [Multiset.coe_nil, add_zero]
    exact ⟨d, rfl, hm, hb⟩
  | cons c w ih =>
    obtain ⟨hpos, hlt⟩ := hw c List.mem_cons_self
    have hspace : c ≠ 0x20 := fun he => hsp (by rw [he]; exact List.mem_cons_self)
    have hsum : m + ↑(c :: w) = c ::ₘ m + ↑w := by
      rw [← Multiset.cons_coe, Multiset.add_cons, Multiset.cons_add]
    rw [hsum] at hf ⊢
    have hnext := hf.mono (Multiset.le_add_right (c ::ₘ m) ↑w)
    obtain ⟨h₁, hrun₁, hrest⟩ := bind_eq_ok.mp hrun
    obtain ⟨d₁, hcount, hm₁⟩ := hm.bump hlt hnext
    have hb₁ := hb.step hlt hm (hnext.mono (Multiset.le_cons_self m c)) hrun₁ hcount
    rw [getCharCountMap_cons hpos hlt hspace, hcount, bind_ok]
    exact ih (fun e he => hw e (List.mem_cons_of_mem _ he)) (fun he => hsp (by simp [he])) hf hm₁
      hb₁ hrest

/-! ## When the two agree -/

theorem fits_word {w : Text} (hw : Ascii w) (hdistinct : w.toFinset.card ≤ kMaxCharsPerWord)
    (hcount : ∀ c, w.count c ≤ 127) : Fits w :=
  ⟨fun c hc => (hw c (Multiset.mem_coe.mp hc)).2,
    fun c => (Multiset.coe_count c w).trans_le (hcount c), hdistinct⟩

/-- A drifted list that still has the entries of `GetCharCountMap` has seen no character twice: a
character is back at its own number only after 256 steps. -/
theorem Drifted.nodup {w : Text} {h d : OccupancyHash} (hdr : Drifted h d w) (hm : Holds d w)
    (hcount : ∀ c, w.count c ≤ 127)
    (hlist : ∀ i < d.index_ptr, h.occupancy_index i = d.occupancy_index i) : w.Nodup := by
  rw [List.nodup_iff_count_le_one]
  intro c
  by_contra hlt
  have hmem : c ∈ w := List.count_pos_iff.mp (by omega)
  obtain ⟨i, hi, rfl⟩ := (hm.listed c).mpr hmem
  have hle := hcount (d.occupancy_index i)
  have hmoved := hdr.entries i hi
  rw [hlist i hi, left_eq_add, ← UInt8.toNat_inj, UInt8.toNat_ofNat', Multiset.coe_count,
    UInt8.toNat_zero] at hmoved
  omega

/-- On two default-constructed hashes, `AddChar` on the characters of the word, one by one, and
one call of `GetCharCountMap` leave the same counts, list, length of the list, and places. -/
def AddCharAgrees (w : Text) : Prop :=
  ∃ h d, new.addChars w = .ok h ∧ new.getCharCountMap w = .ok d ∧ SameLook h d ∧
    h.index_index = d.index_index

/-- `AddChar` agrees with `GetCharCountMap` exactly on the words without a repeated character. -/
theorem addChar_agrees_iff_no_character_repeats (w : Text) (hw : Ascii w) (hsp : 0x20 ∉ w)
    (hdistinct : w.toFinset.card ≤ kMaxCharsPerWord) (hcount : ∀ c, w.count c ≤ 127) :
    AddCharAgrees w ↔ w.Nodup := by
  have hfits : Fits (0 + ↑w) := by
    rw [zero_add]
    exact fits_word hw hdistinct hcount
  constructor
  · rintro ⟨h, d, hrun, drun, hsame, -⟩
    obtain ⟨d', drun', hm, hb⟩ := addChars_beside w hw hsp hfits meets_new beside_new hrun
    obtain rfl := Except.ok.inj (drun.symm.trans drun')
    rw [zero_add] at hm hb
    rcases hb.drifted_or_longer with hdr | hlong
    · exact hdr.nodup hm.holds hcount hsame.listed
    · rw [hsame.index_ptr] at hlong
      exact absurd hlong (lt_irrefl _)
  · intro hn
    have hletters : letters w = ↑w := by
      unfold letters
      rw [List.filter_eq_self.mpr fun c hc => by
        simp only [ne_eq, decide_eq_true_eq]
        rintro rfl
        exact hsp hc]
    obtain ⟨d, drun, -⟩ := getCharCountMap_holds w hw holds_new (by rwa [hletters])
    refine ⟨d, d, ?_, drun, ⟨rfl, rfl, fun _ _ => rfl⟩, rfl⟩
    rw [addChars_eq_getCharCountMap w hw hsp hn fun _ _ => ⟨rfl, rfl⟩, drun]

theorem addChar_agrees_on_tea : AddCharAgrees (bytes "tea") :=
  (addChar_agrees_iff_no_character_repeats (bytes "tea") (by decide +kernel) (by decide +kernel)
    (by decide +kernel) fun c =>
      List.count_le_length.trans (by decide)).mpr (by decide +kernel)

/-- The place of `a` is 0, so the second `a` of `aa` is listed again. -/
theorem addChar_lists_the_a_of_aa_twice :
    Ascii (bytes "aa") ∧ 0x20 ∉ bytes "aa" ∧
      (bytes "aa").toFinset.card ≤ kMaxCharsPerWord ∧ (∀ c, (bytes "aa").count c ≤ 127) ∧
      (new.addChars (bytes "aa")).map (·.index_ptr) = .ok 2 ∧
      (new.getCharCountMap (bytes "aa")).map (·.index_ptr) = .ok 1 ∧
      ¬ AddCharAgrees (bytes "aa") := by
  have hadd : (new.addChars (bytes "aa")).map (·.index_ptr) = .ok 2 := by decide +kernel
  have hcount : (new.getCharCountMap (bytes "aa")).map (·.index_ptr) = .ok 1 := by decide +kernel
  refine ⟨by decide +kernel, by decide +kernel, by decide +kernel,
    fun c => List.count_le_length.trans (by decide), hadd, hcount, ?_⟩
  rintro ⟨h, d, hrun, drun, hsame, -⟩
  rw [hrun] at hadd
  rw [drun] at hcount
  have hh : h.index_ptr = 2 := Except.ok.inj hadd
  have hd : d.index_ptr = 1 := Except.ok.inj hcount
  rw [hsame.index_ptr, hd] at hh
  exact absurd hh (by decide)

-- the second `b` of `abb` turns the entry of `b` into a `c`
example : (new.addChars (bytes "abb")).map (·.occupancy_index 1) = .ok 99 ∧
    (new.getCharCountMap (bytes "abb")).map (·.occupancy_index 1) = .ok 98 := by
  decide +kernel

end OccupancyHash

end anagram
