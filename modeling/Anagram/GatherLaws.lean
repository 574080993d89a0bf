-- What the gather block finds. Each letter of the phrase brings the stored
-- words that begin with it, and the comparison of the counts sorts them into
-- anagrams, words of the subset, and words that do not fit.
import Anagram.Gather
import Anagram.CombineLaws
import Anagram.ExtrapolateLaws

open outcome

namespace anagram

/-! ## What the comparisons say -/

/-- The comparison of the code finds the candidate to have the letters of the phrase. -/
def Matches (master_count : OccupancyHash) (x : Text) : Prop :=
  ∃ b, countOf x = .ok b ∧ b.compare master_count = .ok 0

/-- The comparisons of the code put the candidate into the subset. -/
def Takes (master_count : OccupancyHash) (x : Text) : Prop :=
  ∃ b r, countOf x = .ok b ∧ b.compare master_count = .ok r ∧ r ≠ 0 ∧
    b.isSubset master_count = .ok true

/-- The comparisons of the code with the candidate end. -/
def Comparable (master_count : OccupancyHash) (x : Text) : Prop :=
  ∃ b r, countOf x = .ok b ∧ b.compare master_count = .ok r ∧
    (r ≠ 0 → ∃ sub, b.isSubset master_count = .ok sub)

section
variable {master_count b : OccupancyHash} {x : Text} {r : Int} (hb : countOf x = .ok b)
  (hr : b.compare master_count = .ok r)
include hb hr

/-- With its count and comparison at hand, a candidate is taken by what they say. -/
theorem takes_iff_of_ok :
    Takes master_count x ↔ r ≠ 0 ∧ b.isSubset master_count = .ok true := by
  constructor
  · rintro ⟨b', r', hb', hr', hne, hsub⟩
    obtain rfl := Except.ok.inj (hb.symm.trans hb')
    obtain rfl := Except.ok.inj (hr.symm.trans hr')
    exact ⟨hne, hsub⟩
  · rintro ⟨hne, hsub⟩
    exact ⟨b, r, hb, hr, hne, hsub⟩

theorem matches_iff_of_ok : Matches master_count x ↔ r = 0 := by
  constructor
  · rintro ⟨b', hb', hr'⟩
    obtain rfl := Except.ok.inj (hb.symm.trans hb')
    exact Except.ok.inj (hr.symm.trans hr')
  · rintro rfl
    exact ⟨b, hb, hr⟩

end

/-- With counts that fit, the comparisons say how the letters compare. -/
theorem comparisons_of_holds {n : OccupancyHash} {word x : Text} (hn : n.Holds (letters word))
    (hword : Fits (letters word)) (hx : Ascii x) (hfits : Fits (letters x)) :
    Comparable n x ∧ (Matches n x ↔ letters x = letters word) ∧
      (Takes n x ↔ letters x < letters word) := by
  obtain ⟨b, hb, hholds⟩ := countOf_holds hx hfits
  obtain ⟨r, hr, hzero, -⟩ := OccupancyHash.compare_holds hholds hn hfits hword
  obtain ⟨sub, hsub, hle⟩ := OccupancyHash.isSubset_holds hholds hn hfits hword
  refine ⟨⟨b, r, hb, hr, fun _ => ⟨sub, hsub⟩⟩, (matches_iff_of_ok hb hr).trans hzero, ?_⟩
  rw [lt_iff_le_and_ne, ← hle, ne_eq (letters x), ← hzero, takes_iff_of_ok hb hr, hsub]
  exact ⟨fun h => ⟨Except.ok.inj h.2, h.1⟩, fun h => ⟨h.2, congrArg Except.ok h.1⟩⟩

/-! ## One candidate -/

theorem mem_insert_one (s : StringMap) (k x : Text) : x ∈ s.insert k 1 ↔ x ∈ s ∨ x = k := by
  rw [Std.TreeMap.mem_insert, Std.LawfulEqCmp.compare_eq_iff_eq, or_comm, eq_comm]

/-- When anagrams go to the queue directly, the map stays as it is. -/
theorem mem_addAnagram_iff (flags : AnagramFlags) (candidate : Text) (world : World) (w : Text) :
    w ∈ (addAnagram flags candidate world).anagrams ↔
      w ∈ world.anagrams ∨ (flags.output_directly = false ∧ w = candidate) := by
  have hwrite : ((world.write candidate).push
      (foundMessage (world.write candidate).anagrams.size)).anagrams =
      world.anagrams.insert candidate 1 := rfl
  unfold addAnagram
  split_ifs with hmem hdirect
  · constructor
    · exact Or.inl
    · rintro (h | ⟨-, rfl⟩)
      · exact h
      · exact Std.TreeMap.mem_iff_contains.mpr hmem
  · simp [World.push, hdirect]
  · rw [hwrite, mem_insert_one]
    simp [hdirect]

section
variable {flags : AnagramFlags} {excludeset : StringMap} {master_count : OccupancyHash}

/-- An excluded word is passed over. -/
theorem consider_excluded {x : Text} (hin : x ∈ excludeset) (s : GatherState) :
    consider flags excludeset master_count s x = .ok s := by
  unfold consider
  rw [if_pos (Std.TreeMap.mem_iff_contains.mp hin)]

/-- Any other one is taken when the comparisons end. -/
theorem consider_ok_iff {x : Text} (hout : x ∉ excludeset) {s : GatherState}
    (htidy : s.candidate_count.Tidy) :
    (∃ s', consider flags excludeset master_count s x = .ok s') ↔
      Comparable master_count (cString x) := by
  unfold consider
  rw [if_neg fun hin => hout (Std.TreeMap.mem_iff_contains.mpr hin),
    OccupancyHash.clear_tidy htidy, bind_ok]
  constructor
  · rintro ⟨s', hrun⟩
    obtain ⟨b, hb, hrun⟩ := bind_eq_ok.mp hrun
    obtain ⟨r, hr, hrun⟩ := bind_eq_ok.mp hrun
    refine ⟨b, r, hb, hr, fun hne => ?_⟩
    rw [if_neg hne] at hrun
    obtain ⟨sub, hsub, -⟩ := bind_eq_ok.mp hrun
    exact ⟨sub, hsub⟩
  · rintro ⟨b, r, hb, hr, hsub⟩
    unfold countOf at hb
    rw [hb, bind_ok, hr, bind_ok]
    split_ifs with hzero
    · exact ⟨_, rfl⟩
    · obtain ⟨sub, hsub⟩ := hsub hzero
      rw [hsub, bind_ok]
      split_ifs
      · exact ⟨_, rfl⟩
      · exact ⟨_, rfl⟩

/-- What one candidate can do: it is an anagram, it gets into the subset, or it does not fit. -/
theorem consider_cases {s s' : GatherState} {x : Text} (htidy : s.candidate_count.Tidy)
    (hout : x ∉ excludeset) (hrun : consider flags excludeset master_count s x = .ok s') :
    s'.candidate_count.Tidy ∧ s'.chars_completed = s.chars_completed ∧
    ((Matches master_count (cString x) ∧ ¬ Takes master_count (cString x) ∧
        s'.subset = s.subset ∧ s'.world = addAnagram flags (cString x) s.world) ∨
      (¬ Matches master_count (cString x) ∧ Takes master_count (cString x) ∧
        s'.subset = s.subset.insert (cString x) 1 ∧ s'.world = s.world) ∨
      (¬ Matches master_count (cString x) ∧ ¬ Takes master_count (cString x) ∧
        s'.subset = s.subset ∧ s'.world = s.world)) := by
  unfold consider at hrun
  rw [if_neg fun hin => hout (Std.TreeMap.mem_iff_contains.mpr hin),
    OccupancyHash.clear_tidy htidy, bind_ok] at hrun
  obtain ⟨b, hb, hrun⟩ := bind_eq_ok.mp hrun
  obtain ⟨r, hr, hrun⟩ := bind_eq_ok.mp hrun
  have htidy' := OccupancyHash.tidy_getCharCountMap _ OccupancyHash.tidy_new hb
  rw [matches_iff_of_ok hb hr, takes_iff_of_ok hb hr]
  split_ifs at hrun with hzero
  · cases hrun
    exact ⟨htidy', rfl, Or.inl ⟨hzero, fun h => h.1 hzero, rfl, rfl⟩⟩
  · obtain ⟨sub, hsub, hrun⟩ := bind_eq_ok.mp hrun
    rw [hsub]
    split_ifs at hrun with hyes
    · cases hrun
      exact ⟨htidy', rfl, Or.inr (Or.inl ⟨hzero, ⟨hzero, congrArg Except.ok hyes⟩, rfl, rfl⟩)⟩
    · cases hrun
      exact ⟨htidy', rfl, Or.inr (Or.inr ⟨hzero, fun h => hyes (Except.ok.inj h.2), rfl, rfl⟩)⟩

/-- What one candidate adds. -/
theorem consider_mem {s s' : GatherState} {x : Text} (htidy : s.candidate_count.Tidy)
    (hout : x ∉ excludeset) (hrun : consider flags excludeset master_count s x = .ok s') :
    s'.candidate_count.Tidy ∧ s'.chars_completed = s.chars_completed ∧
    (∀ y, y ∈ s'.world.anagrams ↔ y ∈ s.world.anagrams ∨
      (y = cString x ∧ flags.output_directly = false ∧ Matches master_count (cString x))) ∧
    ∀ y, y ∈ s'.subset ↔ y ∈ s.subset ∨ (y = cString x ∧ Takes master_count (cString x)) := by
  obtain ⟨htidy', hchars, hcase⟩ := consider_cases htidy hout hrun
  refine ⟨htidy', hchars, fun y => ?_, fun y => ?_⟩
  · rcases hcase with ⟨hyes, -, -, hworld⟩ | ⟨hno, -, -, hworld⟩ | ⟨hno, -, -, hworld⟩
    · rw [hworld, mem_addAnagram_iff]
      simp [hyes, and_comm]
    · simp [hworld, hno]
    · simp [hworld, hno]
  · rcases hcase with ⟨-, hno, hsubset, -⟩ | ⟨-, hyes, hsubset, -⟩ | ⟨-, hno, hsubset, -⟩
    · simp [hsubset, hno]
    · rw [hsubset, mem_insert_one]
      simp [hyes]
    · simp [hsubset, hno]

/-- The candidates taken so far are sorted: the anagrams are those that have the letters of the
phrase, and the subset are those that have fewer. Excluded ones are in neither. -/
structure Sorted (phrase : Text) (excludeset : StringMap) (taken : Text → Prop)
    (s : GatherState) : Prop where
  tidy : s.candidate_count.Tidy
  anagrams : ∀ w, w ∈ s.world.anagrams ↔ taken w ∧ w ∉ excludeset ∧ letters w = letters phrase
  subset : ∀ w, w ∈ s.subset ↔ taken w ∧ w ∉ excludeset ∧ letters w < letters phrase

/-- A candidate that does not belong changes nothing. -/
theorem taken_keep {taken q : Text → Prop} {x : Text} (hx : ¬ q x) (w : Text) :
    taken w ∧ q w ↔ (taken w ∨ w = x) ∧ q w := by
  constructor
  · rintro ⟨ht, hq⟩
    exact ⟨Or.inl ht, hq⟩
  · rintro ⟨ht | rfl, hq⟩
    · exact ⟨ht, hq⟩
    · exact absurd hq hx

/-- A candidate is added when it belongs. -/
theorem taken_add {taken q : Text → Prop} {x : Text} {p : Prop} (hp : p ↔ q x) (w : Text) :
    taken w ∧ q w ∨ (w = x ∧ p) ↔ (taken w ∨ w = x) ∧ q w := by
  constructor
  · rintro (⟨ht, hq⟩ | ⟨rfl, h⟩)
    · exact ⟨Or.inl ht, hq⟩
    · exact ⟨Or.inr rfl, hp.mp h⟩
  · rintro ⟨ht | rfl, hq⟩
    · exact Or.inl ⟨ht, hq⟩
    · exact Or.inr ⟨rfl, hp.mpr hq⟩

/-- One candidate is taken, and sorted with the others. -/
theorem consider_sorted {phrase : Text} (hdirect : flags.output_directly = false)
    (hmaster : master_count.Holds (letters phrase)) (hphrase : Fits (letters phrase))
    {taken : Text → Prop} {s : GatherState} (h : Sorted phrase excludeset taken s) {x : Text}
    (hascii : Ascii x) (hfits : Fits (letters x)) :
    ∃ s', consider flags excludeset master_count s x = .ok s' ∧
      s'.chars_completed = s.chars_completed ∧
      Sorted phrase excludeset (fun w => taken w ∨ w = x) s' := by
  by_cases hin : x ∈ excludeset
  · refine ⟨s, consider_excluded hin s, rfl, h.tidy, fun w => ?_, fun w => ?_⟩
    · rw [h.anagrams]
      exact taken_keep (q := fun w => w ∉ excludeset ∧ letters w = letters phrase)
        (fun hx => hx.1 hin) w
    · rw [h.subset]
      exact taken_keep (q := fun w => w ∉ excludeset ∧ letters w < letters phrase)
        (fun hx => hx.1 hin) w
  · have hbytes := cString_of_ascii hascii
    obtain ⟨hcomparable, hmatches, htakes⟩ := comparisons_of_holds hmaster hphrase hascii hfits
    have hends : ∃ s', consider flags excludeset master_count s x = .ok s' := by
      rw [consider_ok_iff hin h.tidy, hbytes]
      exact hcomparable
    obtain ⟨s', hs'⟩ := hends
    obtain ⟨htidy, hchars, hanagrams, hsubset⟩ := consider_mem h.tidy hin hs'
    rw [hbytes] at hanagrams hsubset
    refine ⟨s', hs', hchars, htidy, fun w => ?_, fun w => ?_⟩
    · rw [hanagrams, h.anagrams]
      exact taken_add (q := fun w => w ∉ excludeset ∧ letters w = letters phrase)
        (by simp [hdirect, hmatches, hin]) w
    · rw [hsubset, h.subset]
      exact taken_add (q := fun w => w ∉ excludeset ∧ letters w < letters phrase)
        (by simp [htakes, hin]) w

end

theorem Sorted.congr {phrase : Text} {excludeset : StringMap} {taken taken' : Text → Prop}
    {s : GatherState} (h : Sorted phrase excludeset taken s) (hsame : ∀ w, taken w ↔ taken' w) :
    Sorted phrase excludeset taken' s :=
  ⟨h.tidy, fun w => by rw [← hsame, h.anagrams], fun w => by rw [← hsame, h.subset]⟩

/-! ## The dictionary -/

/-- The dictionaries that the law of the gather block is about: plain words without spaces that
fit the tables, and at most 4096 of one length that begin with the same letter. -/
structure Gatherable (words : List Text) : Prop where
  plain : ∀ w ∈ words, Plain w
  space_free : ∀ w ∈ words, (0x20 : UInt8) ∉ w
  fits : ∀ w ∈ words, Fits (letters (lower w))
  sharing_le : ∀ c n, sharing words c n ≤ 4096

theorem Fits.card_le {m : Multiset UInt8} (h : Fits m) : m.card ≤ 40 * 127 := by
  rw [← Multiset.toFinset_sum_count_eq]
  apply (Finset.sum_le_card_nsmul _ _ 127 fun c _ => h.count_le c).trans
  rw [smul_eq_mul]
  exact Nat.mul_le_mul_right _ h.distinct_le

theorem tolower_ne_space {c : UInt8} (h : c ≠ 0x20) : tolower c ≠ 0x20 := by
  simp only [ne_eq, ← UInt8.toNat_inj, UInt8.reduceToNat, toNat_tolower] at h ⊢
  split_ifs <;> omega

namespace Gatherable

variable {words : List Text}

theorem space_free_stored (h : Gatherable words) {x : Text} (hx : Stored words x) :
    (0x20 : UInt8) ∉ x := by
  obtain ⟨w, hw, rfl⟩ := hx
  intro hmem
  obtain ⟨c, hc, heq⟩ := List.mem_map.mp hmem
  refine tolower_ne_space ?_ heq
  rintro rfl
  exact h.space_free w hw hc

theorem ascii_stored (h : Gatherable words) {x : Text} (hx : Stored words x) : Ascii x := by
  obtain ⟨w, hw, rfl⟩ := hx
  exact ascii_lower (h.plain w hw).2

theorem fits_stored (h : Gatherable words) {x : Text} (hx : Stored words x) :
    Fits (letters x) := by
  obtain ⟨w, hw, rfl⟩ := hx
  exact h.fits w hw

theorem searchable (h : Gatherable words) : Searchable words := by
  refine ⟨h.plain, fun w hw => ?_, h.sharing_le⟩
  have hall : (lower w).filter (fun c => c ≠ 0x20) = lower w := by
    apply List.filter_eq_self.mpr
    intro c hc
    have hne : c ≠ 0x20 := fun heq => h.space_free_stored ⟨w, hw, rfl⟩ (heq ▸ hc)
    simpa using hne
  have hcard := (h.fits w hw).card_le
  rw [letters, hall, Multiset.coe_card, lower, List.length_map] at hcard
  omega

/-- A stored word whose letters are in the phrase begins with a character of the phrase. -/
theorem head_mem (h : Gatherable words) {x phrase : Text} (hx : Stored words x)
    (hle : letters x ≤ letters phrase) : ∃ c ∈ phrase, x.head? = some c := by
  have hspace := h.space_free_stored hx
  obtain ⟨w, hw, heq⟩ := hx
  cases x with
  | nil =>
    have hne := (h.plain w hw).1
    rw [lower, eq_comm, List.map_eq_nil_iff] at heq
    exact absurd heq hne
  | cons c v =>
    have hc : c ∈ letters (c :: v) :=
      mem_letters.mpr ⟨List.mem_cons_self, fun hc => hspace (hc ▸ List.mem_cons_self)⟩
    exact ⟨c, (mem_letters.mp (Multiset.mem_of_le hle hc)).1, rfl⟩

end Gatherable

/-! ## The letters of the phrase -/

section
variable {T : Trie} {words : List Text} (columns : Text → Nat → Nat) {fuel : Nat}

/-- The search for a character of the phrase or for the NUL at its end, which no word has. -/
theorem fuzzyFind_char {t : search_trie.Tst UInt8} (hbuilt : Built T t words)
    (hwords : Gatherable words) (hfuel : (words.map List.length).sum < fuel) {c : UInt8}
    (hc : c < 128) :
    ∃ m, fuzzyFind T columns 0 fuel (cString [c]) T.root ∅ = .ok m ∧
      ∀ x : Text, (∃ k : Int, m[k]? = some x) ↔ Stored words x ∧ x.head? = some c := by
  by_cases hzero : c = 0
  · subst hzero
    refine ⟨∅, rfl, fun x => ?_⟩
    simp only [Std.TreeMap.getElem?_emptyc, reduceCtorEq, exists_false, false_iff]
    rintro ⟨hstored, hhead⟩
    have hpos := (hwords.ascii_stored hstored 0 (List.mem_of_mem_head? hhead)).1
    exact absurd hpos (lt_irrefl _)
  · have hascii : Ascii [c] := by
      intro d hd
      rw [List.mem_singleton.mp hd]
      exact ⟨UInt8.pos_iff_ne_zero.mpr hzero, hc⟩
    rw [cString_of_ascii hascii]
    exact fuzzyFind_letter hbuilt hwords.searchable columns hfuel hascii

variable {flags : AnagramFlags} {excludeset : StringMap} {master_count : OccupancyHash}
  {phrase : Text}

/-- After some characters of the phrase, these are marked as done, and the stored words that
begin with one of them are sorted. -/
structure Gathered (words : List Text) (phrase : Text) (excludeset : StringMap)
    (done : List UInt8) (s : GatherState) : Prop where
  completed : ∀ c, s.chars_completed c = true ↔ c ∈ done
  sorted : Sorted phrase excludeset
    (fun w => Stored words w ∧ ∃ c ∈ done, w.head? = some c) s

/-- The words that one search found are taken one after another. -/
theorem considerAll_sorted (hwords : Gatherable words) (hdirect : flags.output_directly = false)
    (hmaster : master_count.Holds (letters phrase)) (hphrase : Fits (letters phrase))
    {taken : Text → Prop} {s : GatherState} (h : Sorted phrase excludeset taken s)
    {found : List (Int × Text)} (hfound : ∀ it ∈ found, Stored words it.2) :
    ∃ s', found.foldlM (fun s it => consider flags excludeset master_count s it.2) s = .ok s' ∧
      s'.chars_completed = s.chars_completed ∧
      Sorted phrase excludeset (fun w => taken w ∨ w ∈ found.map Prod.snd) s' := by
  apply foldlM_ok (P := fun its s₁ => s₁.chars_completed = s.chars_completed ∧
    Sorted phrase excludeset (fun w => taken w ∨ w ∈ its.map Prod.snd) s₁) found
  · rintro its it rest s₁ hlist ⟨hchars, hsorted⟩
    have hstored := hfound it (by simp [hlist])
    obtain ⟨s₂, hrun, hchars₂, hsorted₂⟩ := consider_sorted hdirect hmaster hphrase hsorted
      (hwords.ascii_stored hstored) (hwords.fits_stored hstored)
    refine ⟨s₂, hrun, hchars₂.trans hchars, hsorted₂.congr fun w => ?_⟩
    simp only [List.map_append, List.mem_append, List.map_cons, List.map_nil, List.mem_singleton]
    rw [or_assoc]
  · exact ⟨rfl, h.congr fun w => by simp⟩

/-- The words that a search has brought. -/
theorem mem_found {m : Std.TreeMap Int Text} {x : Text} :
    x ∈ m.toList.map Prod.snd ↔ ∃ k : Int, m[k]? = some x := by
  rw [List.mem_map]
  constructor
  · rintro ⟨it, hit, rfl⟩
    exact ⟨it.1, Std.TreeMap.mem_toList_iff_getElem?_eq_some.mp hit⟩
  · rintro ⟨k, hk⟩
    exact ⟨(k, x), Std.TreeMap.mem_toList_iff_getElem?_eq_some.mpr hk, rfl⟩

/-- One more letter is done. -/
theorem update_completed {f : UInt8 → Bool} {done : UInt8 → Prop}
    (h : ∀ d, f d = true ↔ done d) (c d : UInt8) :
    Function.update f c true d = true ↔ done d ∨ d = c := by
  rw [Function.update_apply]
  split_ifs with hd
  · simp [hd]
  · rw [h]
    simp [hd]

theorem gatherLetter_gathered {t : search_trie.Tst UInt8} (hbuilt : Built T t words)
    (hwords : Gatherable words) (hfuel : (words.map List.length).sum < fuel)
    (hdirect : flags.output_directly = false) (hmaster : master_count.Holds (letters phrase))
    (hphrase : Fits (letters phrase)) {done : List UInt8} {s : GatherState}
    (h : Gathered words phrase excludeset done s) {c : UInt8} (hc : c < 128) :
    ∃ s', gatherLetter T columns 0 fuel flags excludeset master_count s c = .ok s' ∧
      Gathered words phrase excludeset (done ++ [c]) s' := by
  unfold gatherLetter
  split_ifs with hcompleted
  · -- done before, so nothing is new
    have hmem : c ∈ done := (h.completed c).mp hcompleted
    have hsame : ∀ d, d ∈ done ++ [c] ↔ d ∈ done := by
      intro d
      simp only [List.mem_append, List.mem_singleton, or_iff_left_iff_imp]
      rintro rfl
      exact hmem
    refine ⟨s, rfl, fun d => ?_, h.sorted.congr fun w => ?_⟩
    · rw [hsame, h.completed]
    · simp only [hsame]
  · obtain ⟨m, hm, hmem⟩ := fuzzyFind_char columns hbuilt hwords hfuel hc
    have hfound : ∀ w, w ∈ m.toList.map Prod.snd ↔ Stored words w ∧ w.head? = some c :=
      fun w => mem_found.trans (hmem w)
    obtain ⟨s', hrun, hchars, hsorted⟩ := considerAll_sorted hwords hdirect hmaster hphrase
      (s := { s with chars_completed := Function.update s.chars_completed c true })
      ⟨h.sorted.tidy, h.sorted.anagrams, h.sorted.subset⟩
      fun it hit => ((hfound it.2).mp (List.mem_map_of_mem hit)).1
    rw [hm, bind_ok]
    refine ⟨s', hrun, fun d => ?_, hsorted.congr fun w => ?_⟩
    · rw [hchars, update_completed h.completed, List.mem_append, List.mem_singleton]
    · rw [hfound]
      constructor
      · rintro (⟨hstored, d, hd, hhead⟩ | ⟨hstored, hhead⟩)
        · exact ⟨hstored, d, by simp [hd], hhead⟩
        · exact ⟨hstored, c, by simp, hhead⟩
      · rintro ⟨hstored, d, hd, hhead⟩
        rcases List.mem_append.mp hd with hd | hd
        · exact Or.inl ⟨hstored, d, hd, hhead⟩
        · rw [List.mem_singleton.mp hd] at hhead
          exact Or.inr ⟨hstored, hhead⟩

end

/-- The gather block is exact. It starts with no letter done and with empty maps, from a master
that holds the letters of the phrase. At its end, the anagrams are the stored words, other than
excluded ones, that have the letters of the phrase, and the subset are those that have fewer. -/
theorem the_gather_block_finds_exactly_the_anagrams_and_the_subset {words : List Text}
    (hwords : Gatherable words) {phrase : Text} (hphrase : Ascii phrase)
    (hfits : Fits (letters phrase)) (fuel : Nat) (hfuel : (words.map List.length).sum < fuel)
    (columns : Text → Nat → Nat) (flags : AnagramFlags) (hdirect : flags.output_directly = false)
    (excludeset : StringMap) {master_count : OccupancyHash}
    (hmaster : master_count.Holds (letters phrase)) (w : World) (hw : w.anagrams = ∅) :
    ∃ T s, Trie.insertAll fuel words .empty = .ok T ∧
      gather T columns 0 fuel flags excludeset master_count phrase
        ⟨fun _ => false, OccupancyHash.new, ∅, w⟩ = .ok s ∧
      (∀ x, x ∈ s.world.anagrams ↔
        Stored words x ∧ x ∉ excludeset ∧ letters x = letters phrase) ∧
      (∀ x, x ∈ s.subset ↔ Stored words x ∧ x ∉ excludeset ∧ letters x < letters phrase) := by
  obtain ⟨T, t, hinsert, hbuilt⟩ := insertAll_built (fun w hw => (hwords.plain w hw).storable) hfuel
  have hstart : Gathered words phrase excludeset []
      ⟨fun _ => false, OccupancyHash.new, ∅, w⟩ := by
    refine ⟨by simp, OccupancyHash.tidy_new, fun x => ?_, fun x => ?_⟩
    · simp [hw]
    · simp
  have hstep : ∀ (done : List UInt8) (c : UInt8) (rest : List UInt8) (s : GatherState),
      c_str phrase = done ++ c :: rest → Gathered words phrase excludeset done s →
      ∃ s', gatherLetter T columns 0 fuel flags excludeset master_count s c = .ok s' ∧
        Gathered words phrase excludeset (done ++ [c]) s' := by
    intro done c rest s hsplit hs
    have hmem : c ∈ phrase ++ [0] := by
      rw [← c_str, hsplit]
      simp
    apply gatherLetter_gathered columns hbuilt hwords hfuel hdirect hmaster hfits hs
    rcases List.mem_append.mp hmem with hc | hc
    · exact (hphrase c hc).2
    · rw [List.mem_singleton.mp hc]
      decide
  obtain ⟨s, hrun, hgathered⟩ := foldlM_ok (c_str phrase) hstep hstart
  have hreached : ∀ x, letters x ≤ letters phrase →
      ((Stored words x ∧ ∃ c ∈ c_str phrase, x.head? = some c) ↔ Stored words x) := by
    intro x hle
    refine ⟨And.left, fun hx => ⟨hx, ?_⟩⟩
    obtain ⟨c, hc, hhead⟩ := hwords.head_mem hx hle
    exact ⟨c, List.mem_append_left _ hc, hhead⟩
  refine ⟨T, s, hinsert, hrun, fun x => ?_, fun x => ?_⟩
  · rw [hgathered.sorted.anagrams]
    constructor
    · rintro ⟨⟨hx, -⟩, hrest⟩
      exact ⟨hx, hrest⟩
    · rintro ⟨hx, hrest⟩
      exact ⟨(hreached x hrest.2.le).mpr hx, hrest⟩
  · rw [hgathered.sorted.subset]
    constructor
    · rintro ⟨⟨hx, -⟩, hrest⟩
      exact ⟨hx, hrest⟩
    · rintro ⟨hx, hrest⟩
      exact ⟨(hreached x hrest.2.le).mpr hx, hrest⟩

theorem fits_of_length_le {w : Text} (hascii : Ascii w) (hlen : w.length ≤ kMaxCharsPerWord) :
    Fits (letters w) := by
  have hcard : (letters w).card ≤ kMaxCharsPerWord := (card_letters_le w).trans hlen
  refine ⟨fun c hc => (hascii c (mem_letters.mp hc).1).2, fun c => ?_, ?_⟩
  · exact ((Multiset.count_le_card c _).trans hcard).trans (by decide)
  · exact (Multiset.toFinset_card_le _).trans hcard

theorem sharing_le_length (words : List Text) (c : UInt8) (n : Nat) :
    sharing words c n ≤ words.length := by
  apply List.countP_le_length.trans
  apply (List.dedup_sublist _).length_le.trans
  rw [List.length_map]

theorem the_gather_block_finds_ab_and_b_for_b_a :
    ∃ master_count T s, OccupancyHash.ofWord .new (bytes "b a") = .ok master_count ∧
      Trie.insertAll 9 [bytes "Ab", bytes "b", bytes "c"] .empty = .ok T ∧
      gather T (fun _ _ => 7) 0 9 ⟨false, false, false⟩ ∅ master_count (bytes "b a")
        ⟨fun _ => false, OccupancyHash.new, ∅, .start⟩ = .ok s ∧
      bytes "ab" ∈ s.world.anagrams ∧ bytes "b" ∈ s.subset ∧ bytes "c" ∉ s.subset := by
  have hphrase : Ascii (bytes "b a") := by decide +kernel
  have hfits : Fits (letters (bytes "b a")) := fits_of_length_le hphrase (by decide)
  obtain ⟨master_count, hcount, hholds⟩ := OccupancyHash.getCharCountMap_holds (bytes "b a")
    hphrase OccupancyHash.holds_new (by simpa using hfits)
  rw [zero_add] at hholds
  have hwords : Gatherable [bytes "Ab", bytes "b", bytes "c"] := by
    refine ⟨by decide +kernel, by decide +kernel, ?_, fun c n => ?_⟩
    · have hlen : ∀ w ∈ [bytes "Ab", bytes "b", bytes "c"],
          Ascii (lower w) ∧ (lower w).length ≤ kMaxCharsPerWord := by decide +kernel
      exact fun w hw => fits_of_length_le (hlen w hw).1 (hlen w hw).2
    · exact (sharing_le_length _ c n).trans (by decide)
  obtain ⟨T, s, hinsert, hgather, hanagrams, hsubset⟩ :=
    the_gather_block_finds_exactly_the_anagrams_and_the_subset hwords hphrase hfits
      9 (by decide) (fun _ _ => 7) ⟨false, false, false⟩ rfl ∅ hholds .start rfl
  refine ⟨master_count, T, s, hcount, hinsert, hgather, ?_, ?_, ?_⟩
  · exact (hanagrams _).mpr ⟨⟨bytes "Ab", by simp, by decide +kernel⟩, by simp,
      by decide +kernel⟩
  · exact (hsubset _).mpr ⟨⟨bytes "b", by simp, by decide +kernel⟩, by simp,
      lt_of_le_of_ne (by decide +kernel) (by decide +kernel)⟩
  · intro hc
    exact absurd ((hsubset _).mp hc).2.2.le (by decide +kernel)

end anagram
