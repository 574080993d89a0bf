-- The counters of a job. They are signed chars and nothing bounds the phrase or the
-- words, so they are exact as long as no text and no sum of two texts that the job
-- compares has a character more than 127 times.
import Anagram.JobSteps
import Anagram.CandidateSlots

open outcome traced pruned_search

namespace anagram

/-! ## The letters of a stored word -/

theorem letters_lower (w : Text) : letters (lower w) = (letters w).map tolower := by
  have hspace : ∀ c : UInt8, tolower c ≠ 0x20 ↔ c ≠ 0x20 := by
    intro c
    refine ⟨?_, tolower_ne_space⟩
    rintro h rfl
    exact h (by decide)
  unfold letters lower
  rw [List.filter_map, Multiset.map_coe]
  congr 2
  apply List.filter_congr
  intro c _
  simp only [Function.comp_apply, hspace]

/-- Lowercase letters are no more distinct than the letters were. -/
theorem distinct_stored_le {words : List Text}
    (hdistinct : ∀ w ∈ words, (letters w).toFinset.card ≤ kMaxCharsPerWord) {x : Text}
    (hx : Stored words x) : (letters x).toFinset.card ≤ kMaxCharsPerWord := by
  obtain ⟨w, hw, rfl⟩ := hx
  rw [letters_lower, Multiset.toFinset_map]
  exact Finset.card_image_le.trans (hdistinct w hw)

theorem fits_of_count_le {w : Text} (hascii : Ascii w)
    (hdistinct : (letters w).toFinset.card ≤ kMaxCharsPerWord)
    (hcount : ∀ c, (letters w).count c ≤ 127) : Fits (letters w) :=
  ⟨fun c hc => (hascii c (mem_letters.mp hc).1).2, hcount, hdistinct⟩

/-! ## The candidates -/

theorem all_candidateSteps_iff {Fine : HashStep → Prop} {master_count : OccupancyHash}
    {phrase x : Text} : (∀ e ∈ (candidateInSteps master_count phrase x).steps, Fine e) ↔
      Fine (.count .new x) ∧ ∀ b, countOf x = .ok b → Fine (.compare b master_count x phrase) := by
  unfold candidateInSteps countInSteps compareInSteps
  simp only [all_steps_bind, all_steps_note, result_note, steps_pure, List.not_mem_nil,
    false_imp_iff, implies_true, and_true]
  rfl

/-! ## The whole job -/

/-- No text that the job counts and no sum that it compares has a character more than 127 times:
the phrase, the candidates, and the sums of a word of the subset and of words before it that leave
some letters of the phrase. -/
structure NoCounterOverflows (T : Trie) (columns : Text → Nat → Nat) (fuel : Nat)
    (flags : AnagramFlags) (excludeset : StringMap) (word : Text) : Prop where
  phrase_le : ∀ c, (letters word).count c ≤ 127
  words_le : ∀ x, Considered T columns fuel excludeset (c_str word) x →
    ∀ c, (letters x).count c ≤ 127
  sums_le : ∀ ws k, ws ≠ [] →
    (∀ w ∈ ws ++ [k], Considered T columns fuel excludeset (c_str word) w ∧
      letters w < letters word) →
    (ws ++ [k]).Pairwise (fun a b => (compare a b).isLE) → NotPassedOver flags (ws ++ [k]) →
    total letters ws < letters word → ∀ c, (letters k + total letters ws).count c ≤ 127

section
variable {T : Trie} {t : search_trie.Tst UInt8} {words : List Text} (hbuilt : Built T t words)
  (hplain : ∀ w ∈ words, Plain w) (columns : Text → Nat → Nat) {fuel cpu_tot : Nat}
  (hfuel : (words.map List.length).sum + 67 ≤ fuel) {flags : AnagramFlags}
  {excludeset : StringMap} {prior : OccupancyHash} (hprior : prior.Cleared) {word : Text}
  (hword : Ascii word) (hletters : (letters word).toFinset.card ≤ kMaxCharsPerWord)
  (hdistinct : ∀ x, Considered T columns fuel excludeset (c_str word) x →
    (letters x).toFinset.card ≤ kMaxCharsPerWord)
include hbuilt hplain hfuel hprior hword hletters hdistinct

theorem exact_of_no_overflow
    (hno : NoCounterOverflows T columns fuel flags excludeset word) :
    ∀ e, JobStep T columns fuel cpu_tot flags excludeset prior word e → e.Exact := by
  have hascii := ascii_of_stored hplain
  have hfits := fits_of_count_le hword hletters hno.phrase_le
  have hcandidate : ∀ x, Considered T columns fuel excludeset (c_str word) x →
      Ascii x ∧ Fits (letters x) := by
    intro x hx
    have hxascii := hascii x (considered_stored hbuilt hascii columns (by omega) hx)
    exact ⟨hxascii, fits_of_count_le hxascii (hdistinct x hx) (hno.words_le x hx)⟩
  obtain ⟨n, hn, hnholds⟩ := countOf_holds hword hfits
  obtain ⟨master_count, hcount, hholds⟩ := OccupancyHash.getCharCountMap_holds word hword
    hprior.holds (by simpa using hfits)
  rw [zero_add] at hholds
  refine job_steps hbuilt hascii columns (by omega) (exact_count hprior.holds hword hfits)
    (fun m hm x hx => ?_) fun subset w hrun _ i hi v => ?_
  · obtain rfl := Except.ok.inj (hcount.symm.trans hm)
    obtain ⟨hxascii, hxfits⟩ := hcandidate x hx
    rw [all_candidateSteps_iff]
    refine ⟨exact_count OccupancyHash.holds_new hxascii hxfits, fun b hb => ?_⟩
    obtain ⟨b', hb', hbholds⟩ := countOf_holds hxascii hxfits
    obtain rfl := Except.ok.inj (hb.symm.trans hb')
    exact exact_compare hbholds hholds hxfits hfits
  · obtain ⟨subset', w', hrun', -, hmem⟩ := @job_gathers _ _ _ hbuilt hascii columns _
      (by omega) flags excludeset _ _ (fun _ => True) hprior _ _ hcount hn (fun x hx _ =>
        (countOf_holds (hcandidate x hx).1 (hcandidate x hx).2).imp fun _ h => h.1)
      (fun _ _ => trivial)
    obtain ⟨rfl, rfl⟩ := Prod.mk.inj (Except.ok.inj (hrun.symm.trans hrun'))
    have hkeys : ∀ k ∈ subset.keys, Considered T columns fuel excludeset (c_str word) k ∧
        letters k < letters word := by
      intro k hk
      obtain ⟨hconsidered, htakes⟩ := (hmem k).mp (Std.TreeMap.mem_keys.mp hk)
      obtain ⟨hkascii, hkfits⟩ := hcandidate k hconsidered
      obtain ⟨-, -, htakes_iff⟩ := comparisons_of_holds hnholds hfits hkascii hkfits
      exact ⟨hconsidered, htakes_iff.mp htakes⟩
    refine thread_exact (fun k hk => ⟨(hcandidate k (hkeys k hk).1).1, (hkeys k hk).2⟩) hfits hword
      (fun j k rest ys l hj hdrawn htaken hlt => ?_) fuel v
    have hmems := mem_of_drawn hj hdrawn
    rw [List.drop_drop] at hj
    obtain ⟨-, hsorted⟩ := (drawn_keys_iff subset _).mp (drawn_cons_place.mpr ⟨_, rest, hj, hdrawn⟩)
    exact hno.sums_le (k :: ys) l (by simp) (fun y hy => hkeys y (hmems y hy)) hsorted htaken hlt

theorem no_overflow_of_exact (hcpu : 1 ≤ cpu_tot)
    (hslots : SlotsSuffice T columns fuel cpu_tot flags excludeset prior word)
    (hexact : ∀ e, JobStep T columns fuel cpu_tot flags excludeset prior word e → e.Exact) :
    NoCounterOverflows T columns fuel flags excludeset word := by
  have hascii := ascii_of_stored hplain
  obtain ⟨_, -, hcounted⟩ := hexact _ (count_jobStep T columns fuel cpu_tot flags excludeset prior
    word)
  have hphrase : ∀ c, (letters word).count c ≤ 127 := OccupancyHash.Counts.le hcounted
  have hfits := fits_of_count_le hword hletters hphrase
  obtain ⟨n, hn, hnholds⟩ := countOf_holds hword hfits
  obtain ⟨master_count, hcount, -⟩ := OccupancyHash.getCharCountMap_holds word hword
    hprior.holds (by simpa using hfits)
  obtain ⟨subset, w, hrun, hcandidates, hmem⟩ := job_gathers hbuilt hascii columns
    (by omega : _ < fuel) hprior hcount hn
    (fun x _ hx => (all_candidateSteps_iff.mp hx).1.imp fun _ h => h.1)
    fun e he => hexact e (Or.inl he)
  have hwords : ∀ x, Considered T columns fuel excludeset (c_str word) x →
      ∀ c, (letters x).count c ≤ 127 := by
    intro x hx
    obtain ⟨_, -, hcounts⟩ := (all_candidateSteps_iff.mp (hcandidates x hx)).1
    exact OccupancyHash.Counts.le hcounts
  have hstored : ∀ x, Considered T columns fuel excludeset (c_str word) x → Stored words x :=
    fun x hx => considered_stored hbuilt hascii columns (by omega) hx
  have hsubset : ∀ x, x ∈ subset ↔ Considered T columns fuel excludeset (c_str word) x ∧
      letters x < letters word := by
    intro x
    rw [hmem]
    refine and_congr_right fun hx => ?_
    have hxascii := hascii x (hstored x hx)
    exact (comparisons_of_holds hnholds hfits hxascii
      (fits_of_count_le hxascii (hdistinct x hx) (hwords x hx))).2.2
  refine ⟨hphrase, hwords, fun ws k hne hall hsorted htaken hlt => ?_⟩
  obtain ⟨k₀, ys, rfl⟩ := List.exists_cons_of_ne_nil hne
  obtain ⟨i, hi, j, rest, hj, hdrawn⟩ := exists_place hcpu ((drawn_keys_iff subset _).mpr
    ⟨fun y hy => (hsubset y).mpr (hall y hy), hsorted⟩)
  have hlesser : Lesser word subset.keys := by
    intro y hy
    obtain ⟨hconsidered, hless⟩ := (hsubset y).mp (Std.TreeMap.mem_keys.mp hy)
    exact ⟨hascii y (hstored y hconsidered), hless⟩
  have hlength := job_subset_stored hbuilt hascii columns (by omega : _ < fuel)
    (fun x hx => ((hsubset x).mp hx).1) (ne_nil_of_stored hplain)
  have hthread : ∀ e ∈ (combineInSteps 64 fuel cpu_tot flags word subset.keys (i : Nat)
      .start).steps, JobStep T columns fuel cpu_tot flags excludeset prior word e :=
    fun e he => Or.inr ⟨subset, w, hrun, i, .start, hi, he⟩
  have hsuffice := suffice_of_thread_exact hlesser hfits hword hcpu (by omega)
    (by omega : 64 + 1 < fuel)
    (fun e he => HashStep.within_iff.mpr fun depth h => hslots depth (h ▸ hthread e he))
    fun e he => hexact e (hthread e he)
  exact hsuffice j k₀ rest ys k hj hdrawn htaken hlt

end

/-- A phrase of the bounded search and words of at most 127 bytes overflow no counter. -/
theorem InBounds.noCounterOverflows {T : Trie} {t : search_trie.Tst UInt8} {words : List Text}
    (hbuilt : Built T t words) (hplain : ∀ w ∈ words, Plain w ∧ w.length ≤ 127)
    (columns : Text → Nat → Nat) {fuel : Nat} (hfuel : (words.map List.length).sum < fuel)
    (flags : AnagramFlags) (excludeset : StringMap) {word : Text} (hb : InBounds word) :
    NoCounterOverflows T columns fuel flags excludeset word := by
  refine ⟨(hb.fits le_rfl).count_le, fun x hx c => ?_, fun ws k _ hall _ _ hlt => ?_⟩
  · obtain ⟨w, hw, rfl⟩ := considered_stored hbuilt (ascii_of_stored fun w hw => (hplain w hw).1)
      columns hfuel hx
    have hlen : (letters (lower w)).card ≤ w.length := by
      simpa [lower] using card_letters_le (lower w)
    exact (Multiset.count_le_card c _).trans (hlen.trans (hplain w hw).2)
  · exact (hb.fits_add (hall k (by simp)).2.le hlt.le).count_le

/-- For every phrase and all words over the bytes 1 to 127, each with at most 40 distinct letters:
every count and every sum of the job fills the cells with the true numbers, and every comparison
has the sign of the true multisets, when no text that the job counts and no sum that it compares
has a character more than 127 times. If the array of the hashes is large enough for the job, only
then. -/
theorem the_counters_are_exact_iff_no_sum_overflows {words : List Text}
    (hplain : ∀ w ∈ words, Plain w)
    (hdistinct : ∀ w ∈ words, (letters w).toFinset.card ≤ kMaxCharsPerWord)
    (columns : Text → Nat → Nat) (flags : AnagramFlags) (excludeset : StringMap)
    {prior : OccupancyHash} (hprior : prior.Cleared) {word : Text} (hword : Ascii word)
    (hletters : (letters word).toFinset.card ≤ kMaxCharsPerWord) {cpu_tot : Nat}
    (hcpu : 1 ≤ cpu_tot) {fuel : Nat} (hfuel : (words.map List.length).sum + 67 ≤ fuel) :
    ∃ T, Trie.insertAll fuel words .empty = .ok T ∧
      (NoCounterOverflows T columns fuel flags excludeset word →
        ∀ e, JobStep T columns fuel cpu_tot flags excludeset prior word e → e.Exact) ∧
      (SlotsSuffice T columns fuel cpu_tot flags excludeset prior word →
        (∀ e, JobStep T columns fuel cpu_tot flags excludeset prior word e → e.Exact) →
        NoCounterOverflows T columns fuel flags excludeset word) := by
  obtain ⟨T, t, hinsert, hbuilt⟩ := insertAll_built (fun w hw => (hplain w hw).storable)
    (by omega : _ < fuel)
  have hconsidered : ∀ x, Considered T columns fuel excludeset (c_str word) x →
      (letters x).toFinset.card ≤ kMaxCharsPerWord := fun x hx => distinct_stored_le hdistinct
    (considered_stored hbuilt (ascii_of_stored hplain) columns (by omega) hx)
  refine ⟨T, hinsert, fun hno => ?_, fun hslots hexact => ?_⟩
  · exact exact_of_no_overflow hbuilt hplain columns hfuel hprior hword hletters hconsidered hno
  · exact no_overflow_of_exact hbuilt hplain columns hfuel hprior hword hletters hconsidered hcpu
      hslots hexact

theorem the_counters_of_ab_are_exact :
    ∃ T, Trie.insertAll 69 [bytes "a", bytes "b"] .empty = .ok T ∧
      ∀ e, JobStep T (fun _ _ => 0) 69 1 ⟨false, false, false⟩ ∅ .new (bytes "ab") e →
        e.Exact := by
  have hb : InBounds (bytes "ab") := .of_length_le (by decide +kernel) (by decide)
  have hplain : ∀ w ∈ [bytes "a", bytes "b"], Plain w ∧ w.length ≤ 127 := by decide +kernel
  obtain ⟨T, hinsert, hexact, -⟩ := the_counters_are_exact_iff_no_sum_overflows
    (fun w hw => (hplain w hw).1) (by decide) (fun _ _ => 0) ⟨false, false, false⟩ ∅
    OccupancyHash.cleared_new hb.ascii hb.distinct_le le_rfl (by decide : _ ≤ 69)
  obtain ⟨T', t, hinsert', hbuilt⟩ := insertAll_built
    (fun w hw => (hplain w hw).1.storable) (by decide : _ < 69)
  obtain rfl := Except.ok.inj (hinsert.symm.trans hinsert')
  exact ⟨T, hinsert, hexact (hb.noCounterOverflows hbuilt hplain _ (by decide) _ _)⟩

/-- For 128 letters a and no words at all, the first step of the job, the count of the phrase, makes
the number of the letter -128, and one letter a is more than that. -/
theorem the_count_of_128_a_is_negative :
    Ascii (manyAs 128) ∧ (letters (manyAs 128)).toFinset.card ≤ kMaxCharsPerWord ∧
      (∃ e, JobStep .empty (fun _ _ => 0) 67 1 ⟨false, false, false⟩ ∅ .new (manyAs 128) e ∧
        ¬ e.Exact) ∧
      ∃ a b, countOf (bytes "a") = .ok a ∧ countOf (manyAs 128) = .ok b ∧
        (b.char_count 97).toInt = -128 ∧ a.compare b = .ok 1 := by
  have hcount : (letters (manyAs 128)).count 97 = 128 := by
    rw [letters_manyAs, Multiset.count_replicate_self]
  refine ⟨by decide +kernel, by decide +kernel, ⟨.count .new (manyAs 128),
    count_jobStep .., ?_⟩, ?_⟩
  · rintro ⟨h, -, hcounts⟩
    have := OccupancyHash.Counts.le hcounts 97
    omega
  · have hrun : (do
        let a ← countOf (bytes "a")
        let b ← countOf (manyAs 128)
        let r ← a.compare b
        .ok ((b.char_count 97).toInt, r) : Run (Int × Int)) = .ok (-128, 1) := by decide +kernel
    obtain ⟨a, ha, hrun⟩ := bind_eq_ok.mp hrun
    obtain ⟨b, hb, hrun⟩ := bind_eq_ok.mp hrun
    obtain ⟨r, hr, hrun⟩ := bind_eq_ok.mp hrun
    obtain ⟨hcell, rfl⟩ := Prod.mk.inj (Except.ok.inj hrun)
    exact ⟨a, b, ha, hb, hcell, hr⟩

end anagram
