-- The constructor of the hash from a word. It counts on top of what the memory
-- of the object held before, so the object is the one it should be exactly when
-- that memory was clear, and GetAnagrams depends on it through its master.
import Anagram.Gather
import Anagram.HashLaws

open outcome

namespace anagram

namespace OccupancyHash

/-! ## Two hashes side by side -/

/-- The same counts, list, and length of the list. The cells of the list from its length on and
`index_index` may differ, and so may what no comparison reads. -/
structure SameLook (h d : OccupancyHash) : Prop where
  char_count : h.char_count = d.char_count
  index_ptr : h.index_ptr = d.index_ptr
  listed : ∀ i < d.index_ptr, h.occupancy_index i = d.occupancy_index i

/-- What the constructor relies on: no count, and an empty list. -/
structure Cleared (prior : OccupancyHash) : Prop where
  char_count : ∀ c, prior.char_count c = 0
  index_ptr : prior.index_ptr = 0

theorem Cleared.sameLook {p q : OccupancyHash} (hp : Cleared p) (hq : Cleared q) :
    SameLook p q := by
  refine ⟨?_, ?_, fun i hi => ?_⟩
  · funext c
    rw [hp.char_count, hq.char_count]
  · rw [hp.index_ptr, hq.index_ptr]
  · rw [hq.index_ptr] at hi
    exact absurd hi (Nat.not_lt_zero _)

theorem cleared_new : Cleared new := ⟨fun _ => rfl, rfl⟩

theorem Cleared.holds {prior : OccupancyHash} (h : Cleared prior) : prior.Holds 0 := by
  refine ⟨fun c => h.char_count c, fun c => ?_, fun i hi => ?_⟩
  · simp [h.index_ptr]
  · rw [h.index_ptr] at hi
    exact absurd hi (Nat.not_lt_zero _)

theorem bump_sameLook {h d : OccupancyHash} (hsame : SameLook h d) (c : UInt8) (n : Int8) :
    Related SameLook (h.bump c n) (d.bump c n) := by
  unfold bump occupy
  rw [hsame.char_count, hsame.index_ptr]
  split_ifs with hzero hroom
  · refine ⟨rfl, rfl, fun i hi => ?_⟩
    by_cases hlast : i = d.index_ptr
    · subst hlast
      simp
    · have hlt : i < d.index_ptr := by
        have hle : i < d.index_ptr + 1 := hi
        omega
      simp only [Function.update_of_ne hlast]
      exact hsame.listed i hlt
  · rfl
  · exact ⟨rfl, rfl, hsame.listed⟩

theorem getCharCountMap_sameLook (word : Text) {h d : OccupancyHash} (hsame : SameLook h d) :
    Related SameLook (h.getCharCountMap word) (d.getCharCountMap word) := by
  induction word generalizing h d with
  | nil => exact hsame
  | cons c word ih =>
    unfold getCharCountMap
    split_ifs
    · exact hsame
    · exact ih hsame
    · cases cell c with
      | error e => rfl
      | ok char_index =>
        simp only [bind_ok]
        exact related_bind (bump_sameLook hsame char_index 1) fun a b hab => ih hab

/-! ## From the object back to the memory -/

/-- A bump by one adds one to the count, whether the character is new or not. -/
theorem char_count_bump {h h' : OccupancyHash} {c : UInt8} (hb : h.bump c 1 = .ok h') :
    h'.char_count = Function.update h.char_count c (h.char_count c + 1) := by
  unfold bump occupy at hb
  split_ifs at hb with hzero hroom
  · cases hb
    rw [hzero]
    rfl
  · cases hb
    rfl

/-- A bump makes the list longer when the character shows no count. -/
theorem index_ptr_bump {h h' : OccupancyHash} {c : UInt8} {n : Int8} (hb : h.bump c n = .ok h') :
    h'.index_ptr = if h.char_count c = 0 then h.index_ptr + 1 else h.index_ptr := by
  unfold bump occupy at hb
  split_ifs at hb with hzero hroom
  · cases hb
    exact (if_pos hzero).symm
  · cases hb
    exact (if_neg hzero).symm

/-- Two counts of one word take the same turn: both are at the end, both pass over a space, or both
bump the same character. -/
theorem getCharCountMap_cases {c : UInt8} {word : Text} {h d h' d' : OccupancyHash}
    (hrun : h.getCharCountMap (c :: word) = .ok h')
    (drun : d.getCharCountMap (c :: word) = .ok d') :
    (h = h' ∧ d = d') ∨ (h.getCharCountMap word = .ok h' ∧ d.getCharCountMap word = .ok d') ∨
      ∃ e h₁ d₁, h.bump e 1 = .ok h₁ ∧ d.bump e 1 = .ok d₁ ∧
        h₁.getCharCountMap word = .ok h' ∧ d₁.getCharCountMap word = .ok d' := by
  unfold getCharCountMap at hrun drun
  split_ifs at hrun drun
  · exact Or.inl ⟨Except.ok.inj hrun, Except.ok.inj drun⟩
  · exact Or.inr (Or.inl ⟨hrun, drun⟩)
  · obtain ⟨e, he, hrun⟩ := bind_eq_ok.mp hrun
    obtain ⟨e', he', drun⟩ := bind_eq_ok.mp drun
    obtain rfl : e = e' := Except.ok.inj (he.symm.trans he')
    obtain ⟨h₁, hbump, hrun⟩ := bind_eq_ok.mp hrun
    obtain ⟨d₁, dbump, drun⟩ := bind_eq_ok.mp drun
    exact Or.inr (Or.inr ⟨e, h₁, d₁, hbump, dbump, hrun, drun⟩)

/-- Equal counts after a word come from equal counts before it. -/
theorem char_count_of_getCharCountMap (word : Text) {h d h' d' : OccupancyHash}
    (hrun : h.getCharCountMap word = .ok h') (drun : d.getCharCountMap word = .ok d')
    (heq : h'.char_count = d'.char_count) : h.char_count = d.char_count := by
  induction word generalizing h d with
  | nil =>
    cases hrun
    cases drun
    exact heq
  | cons c word ih =>
    rcases getCharCountMap_cases hrun drun with ⟨rfl, rfl⟩ | ⟨hrun, drun⟩ |
      ⟨e, h₁, d₁, hbump, dbump, hrun, drun⟩
    · exact heq
    · exact ih hrun drun
    · have hcount := ih hrun drun
      rw [char_count_bump hbump, char_count_bump dbump] at hcount
      funext x
      have hx := congrFun hcount x
      simp only [Function.update_apply] at hx
      split_ifs at hx with hxe
      · rw [hxe]
        exact Int8.add_left_inj 1 |>.mp hx
      · exact hx

/-- With equal counts, a word adds as many entries to both lists. -/
theorem index_ptr_of_getCharCountMap (word : Text) {h d h' d' : OccupancyHash}
    (hrun : h.getCharCountMap word = .ok h') (drun : d.getCharCountMap word = .ok d')
    (heq : h.char_count = d.char_count) :
    h'.index_ptr + d.index_ptr = d'.index_ptr + h.index_ptr := by
  induction word generalizing h d with
  | nil =>
    cases hrun
    cases drun
    exact Nat.add_comm _ _
  | cons c word ih =>
    rcases getCharCountMap_cases hrun drun with ⟨rfl, rfl⟩ | ⟨hrun, drun⟩ |
      ⟨e, h₁, d₁, hbump, dbump, hrun, drun⟩
    · exact Nat.add_comm _ _
    · exact ih hrun drun heq
    · have hptr := ih hrun drun (by rw [char_count_bump hbump, char_count_bump dbump, heq])
      rw [index_ptr_bump hbump, index_ptr_bump dbump, heq] at hptr
      split_ifs at hptr
      · omega
      · exact hptr

/-! ## Comparisons with the master -/

theorem compareLoop_sameLook (a : OccupancyHash) {m n : OccupancyHash} (hsame : SameLook m n)
    (k : Nat) (r : Int) : compareLoop a m k r = compareLoop a n k r := by
  induction k generalizing r with
  | zero => rfl
  | succ k ih =>
    unfold compareLoop
    simp only [hsame.char_count, ih]

theorem compareRest_sameLook (a : OccupancyHash) {m n : OccupancyHash} (hsame : SameLook m n)
    {k : Nat} (hk : k ≤ n.index_ptr) : compareRest a m k = compareRest a n k := by
  induction k with
  | zero => rfl
  | succ k ih =>
    unfold compareRest occupied
    rw [hsame.listed k hk, hsame.char_count, ih (by omega)]

theorem compare_sameLook (a : OccupancyHash) {m n : OccupancyHash} (hsame : SameLook m n) :
    a.compare m = a.compare n := by
  unfold compare
  rw [hsame.index_ptr, compareLoop_sameLook a hsame, compareRest_sameLook a hsame le_rfl]

theorem isSubset_sameLook (a : OccupancyHash) {m n : OccupancyHash} (hsame : SameLook m n) :
    a.isSubset m = a.isSubset n := by
  unfold isSubset
  induction a.index_ptr with
  | zero => rfl
  | succ k ih =>
    unfold isSubsetLoop
    rw [hsame.char_count, ih]

end OccupancyHash

/-! ## GetAnagrams -/

open OccupancyHash

theorem gather_sameLook (t : Trie) (columns : Text → Nat → Nat) (max_diff_ : Int) (fuel : Nat)
    (flags : AnagramFlags) (excludeset : StringMap) {m n : OccupancyHash} (hsame : SameLook m n)
    (word : Text) (s : GatherState) :
    gather t columns max_diff_ fuel flags excludeset m word s =
      gather t columns max_diff_ fuel flags excludeset n word s := by
  have hconsider : consider flags excludeset m = consider flags excludeset n := by
    funext s text
    unfold consider
    simp only [compare_sameLook _ hsame, isSubset_sameLook _ hsame]
  unfold gather gatherLetter
  rw [hconsider]

theorem ofWord_sameLook {p q : OccupancyHash} (hp : Cleared p) (hq : Cleared q) (word : Text) :
    Related SameLook (ofWord p word) (ofWord q word) :=
  getCharCountMap_sameLook word (hp.sameLook hq)

/-- Two runs in clear memory are the same. -/
theorem getAnagrams_cleared (t : Trie) (columns : Text → Nat → Nat) (max_diff_ : Int)
    (fuel cpu_tot : Nat) (flags : AnagramFlags) (excludeset : StringMap) {p q : OccupancyHash}
    (hp : Cleared p) (hq : Cleared q) (word : Text) (thread_index : Int)
    (chars_completed : UInt8 → Bool) (subset : StringMap) (w : World) :
    getAnagrams t columns max_diff_ fuel cpu_tot flags excludeset p word thread_index
        chars_completed subset w =
      getAnagrams t columns max_diff_ fuel cpu_tot flags excludeset q word thread_index
        chars_completed subset w := by
  have hblock : gatherBlock t columns max_diff_ fuel flags excludeset p word chars_completed
      subset w = gatherBlock t columns max_diff_ fuel flags excludeset q word chars_completed
      subset w := by
    unfold gatherBlock
    apply bind_eq_of_related (ofWord_sameLook hp hq word)
    intro m n hsame
    rw [gather_sameLook t columns max_diff_ fuel flags excludeset hsame]
  unfold getAnagrams
  rw [hblock]

/-- The object that the constructor from `word` makes in the memory `prior` is the one that the
default constructor and `GetCharCountMap` make. -/
def MakesTheCount (prior : OccupancyHash) (word : Text) : Prop :=
  ∃ h d, ofWord prior word = .ok h ∧ OccupancyHash.new.getCharCountMap word = .ok d ∧
    SameLook h d

/-- Every run of `GetAnagrams` for `word` with its master in the memory `prior` is the one with
its master in the memory `prior'`. -/
def RunsAlike (prior prior' : OccupancyHash) (word : Text) : Prop :=
  ∀ (t : Trie) (columns : Text → Nat → Nat) (max_diff_ : Int) (fuel cpu_tot : Nat)
    (flags : AnagramFlags) (excludeset : StringMap) (thread_index : Int)
    (chars_completed : UInt8 → Bool) (subset : StringMap) (w : World),
    getAnagrams t columns max_diff_ fuel cpu_tot flags excludeset prior word thread_index
        chars_completed subset w =
      getAnagrams t columns max_diff_ fuel cpu_tot flags excludeset prior' word thread_index
        chars_completed subset w

/-- The constructor makes the count of the word, and with it every run of `GetAnagrams` is the
same as in any other clear memory, exactly when the memory was clear. The word is one that a
hash can count. -/
theorem the_constructor_counts_the_word_iff_its_memory_is_clear (prior : OccupancyHash)
    (word : Text) (hword : ∃ d, OccupancyHash.new.getCharCountMap word = .ok d) :
    (MakesTheCount prior word ∧ ∀ prior', Cleared prior' → RunsAlike prior prior' word) ↔
      Cleared prior := by
  constructor
  · rintro ⟨⟨h, d, hrun, drun, hsame⟩, -⟩
    have hcount := char_count_of_getCharCountMap word hrun drun hsame.char_count
    have hptr := index_ptr_of_getCharCountMap word hrun drun hcount
    refine ⟨fun c => congrFun hcount c, ?_⟩
    have hzero : OccupancyHash.new.index_ptr = 0 := rfl
    rw [hsame.index_ptr] at hptr
    omega
  · intro hcleared
    refine ⟨?_, fun prior' hcleared' t columns max_diff_ fuel cpu_tot flags excludeset thread_index
      chars_completed subset w => getAnagrams_cleared t columns max_diff_ fuel cpu_tot flags
        excludeset hcleared hcleared' word thread_index chars_completed subset w⟩
    obtain ⟨d, drun⟩ := hword
    have hrelated := ofWord_sameLook hcleared cleared_new word
    have drun' : ofWord OccupancyHash.new word = .ok d := drun
    rw [drun'] at hrelated
    cases hrun : ofWord prior word with
    | error e =>
      rw [hrun] at hrelated
      exact hrelated.elim
    | ok h =>
      rw [hrun] at hrelated
      exact ⟨h, d, hrun, drun, hrelated⟩

theorem the_constructor_counts_ab_in_clear_memory :
    MakesTheCount OccupancyHash.new (bytes "ab") := by
  have hword : (OccupancyHash.new.getCharCountMap (bytes "ab")).isOk = true := by decide +kernel
  have hok : ∃ d, OccupancyHash.new.getCharCountMap (bytes "ab") = .ok d := by
    cases hrun : OccupancyHash.new.getCharCountMap (bytes "ab") with
    | error e =>
      rw [hrun] at hword
      cases hword
    | ok d => exact ⟨d, rfl⟩
  exact ((the_constructor_counts_the_word_iff_its_memory_is_clear OccupancyHash.new (bytes "ab")
    hok).mpr cleared_new).1

/-- Memory that holds a count of 1 for `a`. -/
def leftover : OccupancyHash :=
  { OccupancyHash.new with char_count := Function.update (fun _ => 0) 97 1 }

/-- Whether thread 0 of a job over the word `ab` finds `ab` for the phrase `ab`. -/
def findsAb (prior : OccupancyHash) : Run Bool := do
  let t ← Trie.insertAll 9 [bytes "ab"] .empty
  let (_, w) ← getAnagrams t (fun _ _ => 0) 0 9 1 ⟨true, false, false⟩ ∅ prior (bytes "ab") 0
    (fun _ => false) ∅ .start
  .ok (w.anagrams.contains (bytes "ab"))

/-- In the memory with a count of 1 for `a`, the constructor counts 2 for the word `ab`, and the
run of `GetAnagrams` for `ab` does not find `ab`, which the run in clear memory finds. -/
theorem a_leftover_count_of_a_loses_ab :
    (ofWord leftover (bytes "ab")).map (·.char_count 97) = .ok 2 ∧
    (OccupancyHash.new.getCharCountMap (bytes "ab")).map (·.char_count 97) = .ok 1 ∧
    ¬ MakesTheCount leftover (bytes "ab") ∧
    findsAb leftover = .ok false ∧ findsAb OccupancyHash.new = .ok true := by
  have hleft : (ofWord leftover (bytes "ab")).map (·.char_count 97) = .ok 2 := by decide +kernel
  have hnew : (OccupancyHash.new.getCharCountMap (bytes "ab")).map (·.char_count 97) = .ok 1 := by
    decide +kernel
  refine ⟨hleft, hnew, ?_, by decide +kernel, by decide +kernel⟩
  rintro ⟨h, d, hrun, drun, hsame⟩
  rw [hrun] at hleft
  rw [drun] at hnew
  have hcount := congrFun hsame.char_count 97
  have hh : h.char_count 97 = 2 := Except.ok.inj hleft
  have hd : d.char_count 97 = 1 := Except.ok.inj hnew
  rw [hh, hd] at hcount
  exact absurd hcount (by decide)

end anagram
