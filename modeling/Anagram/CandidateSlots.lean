-- The array of the hashes has 64 entries, one for each depth of the recursion, and
-- no test guards it. A phrase of 66 words that still leaves some letters of the
-- master needs one more.
import Anagram.ExactCounts

open outcome traced pruned_search

namespace anagram

/-! ## The accesses of a run -/

/-- Every access to `candidate_count_arr` is inside the array. -/
def SlotsInRange (fuel cpu_tot : Nat) (flags : AnagramFlags) (word : Text) (subset : StringMap)
    (thread_index : Int) (w : World) : Prop :=
  ∀ depth, .slot depth ∈
    (combineSubsetsFastInSteps fuel cpu_tot flags word subset thread_index w).steps → depth < 64

/-- No count and no sum of the run fails, so nothing but the array can end it early. -/
def CountsSucceed (fuel cpu_tot : Nat) (flags : AnagramFlags) (word : Text) (subset : StringMap)
    (thread_index : Int) (w : World) : Prop :=
  ∀ e ∈ (combineSubsetsFastInSteps fuel cpu_tot flags word subset thread_index w).steps, e.Succeeds

/-- The words in order, from one of the places of the thread, after each of which the comparison
of the code lets the search go on. -/
def GoesOn (flags : AnagramFlags) (cpu_tot : Nat) (word : Text) (subset : StringMap)
    (thread_index : Int) (ws : List Text) : Prop :=
  ∃ master_count, countOf word = .ok master_count ∧ ∃ j k rest ys,
    (subset.keys.drop thread_index.toNat).drop (j * cpu_tot) = k :: rest ∧ ws = k :: ys ∧
    Drawn (k :: rest) ys ∧ Descends (combineRules 64 flags master_count) [k] ys

/-- The words in the order of the map, from one of the places of the thread, that together leave
some letters of the master. -/
structure LeavesLetters (flags : AnagramFlags) (cpu_tot : Nat) (word : Text) (subset : StringMap)
    (thread_index : Int) (ws : List Text) : Prop where
  ne_nil : ws ≠ []
  place : ∃ j, subset.keys[thread_index.toNat + j * cpu_tot]? = ws.head?
  mem : ∀ w ∈ ws, w ∈ subset
  sorted : ws.Pairwise (fun a b => (compare a b).isLE)
  taken : NotPassedOver flags ws
  total_lt : total letters ws < letters word

variable {word : Text} {subset : StringMap} {flags : AnagramFlags} {cpu_tot fuel : Nat}
  {thread_index : Int} {w : World}

/-- An access is one for words that the search goes on from. -/
theorem goesOn_of_slot {depth : Nat}
    (h : .slot depth ∈
      (combineSubsetsFastInSteps fuel cpu_tot flags word subset thread_index w).steps) :
    ∃ ws, GoesOn flags cpu_tot word subset thread_index ws ∧ ws.length = depth + 2 := by
  -- of the steps of a turn, the access is the one after a negative comparison
  have hall : ∀ e ∈ (combineSubsetsFastInSteps fuel cpu_tot flags word subset thread_index w).steps,
      ∀ depth, e = .slot depth →
        ∃ ws, GoesOn flags cpu_tot word subset thread_index ws ∧ ws.length = depth + 2 := by
    refine all_thread_steps (by simp) (by simp)
      fun master_count hm j k l rest ys a hj hdrawn hdesc hskip ha => ?_
    rw [all_nextSteps_iff ha]
    refine ⟨by simp, fun b hb => ⟨by simp, fun sum hsum => ⟨by simp, fun r hr hcmp => ⟨?_,
      by simp⟩⟩⟩⟩
    rintro depth ⟨rfl⟩
    refine ⟨k :: (ys ++ [l]), ⟨master_count, hm, j, k, rest, ys ++ [l], hj, rfl, hdrawn, ?_⟩,
      by simp⟩
    rw [descends_append]
    exact ⟨hdesc, hskip, ⟨r, hr, (verdict_eq_ok ha).mpr ⟨b, sum, hb, hsum, hcmp⟩⟩, trivial⟩
  exact hall _ h depth rfl

/-- Words that the search goes on from bring an access, when nothing but the array ends the run
early. -/
theorem length_le_of_slots (hp : Partials word subset.keys) (hcpu : 1 ≤ cpu_tot)
    (hfuel : subset.keys.length + 67 ≤ fuel)
    (hcounts : CountsSucceed fuel cpu_tot flags word subset thread_index w)
    (hslots : SlotsInRange fuel cpu_tot flags word subset thread_index w) {ws : List Text}
    (h : GoesOn flags cpu_tot word subset thread_index ws) : ws.length ≤ 65 := by
  by_contra hlong
  obtain ⟨master_count, hm, j, k, rest, ys, hj, rfl, hdrawn, hdesc⟩ := h
  -- the first 66 of the words
  obtain ⟨zs, l, more, rfl, hzs⟩ : ∃ zs l more, ys = zs ++ l :: more ∧ zs.length = 64 := by
    rw [List.length_cons] at hlong
    have hlt : 64 < ys.length := by omega
    refine ⟨ys.take 64, ys[64], ys.drop 65, ?_, by rw [List.length_take]; omega⟩
    rw [← List.drop_eq_getElem_cons hlt, List.take_append_drop]
  rw [descends_append] at hdesc
  obtain ⟨hdesc, hskip, ⟨r, hr, hverdict⟩, -⟩ := hdesc
  have hpre : Drawn (k :: rest) (zs ++ [l]) :=
    Drawn.of_append (show Drawn (k :: rest) ((zs ++ [l]) ++ more) by simpa using hdrawn)
  have hall := (@thread_steps_iff 64 flags (fun e => e.Succeeds ∧ e.Within 64) word subset.keys fuel
    cpu_tot hcpu (by omega) (by omega) (fun k hk => not_stuck hp hk) thread_index w
    fun _ _ t _ _ h => h).mp fun e he =>
      ⟨hcounts e he, HashStep.within_iff.mpr fun depth h => hslots depth (h ▸ he)⟩
  obtain ⟨hentered, hsteps⟩ := hall.2 master_count hm _
    ⟨j, k, rest, hj, Or.inr ⟨zs, l, rfl, hpre, hdesc, hskip⟩⟩
  obtain ⟨-, a, ha⟩ := enter_eq_ok.mp hentered
  obtain ⟨b, sum, hb, hsum, hcmp⟩ := (verdict_eq_ok ha).mp hverdict
  obtain ⟨⟨-, hslot⟩, -⟩ := ((((all_nextSteps_iff ha).mp hsteps).2 b hb).2 sum hsum).2 r hr hcmp
  have hlt : ([k] ++ zs).length - 1 < 64 := hslot
  simp only [List.length_append, List.length_singleton, hzs] at hlt
  omega

/-- Where no counter overflows, the search goes on exactly from the words that leave letters. -/
theorem goesOn_iff_leavesLetters (hp : Partials word subset.keys) (hascii : Ascii word)
    (hfits : Fits (letters word))
    (hsuffice : CountersSuffice flags cpu_tot word subset.keys thread_index) (ws : List Text) :
    GoesOn flags cpu_tot word subset thread_index ws ↔
      LeavesLetters flags cpu_tot word subset thread_index ws := by
  obtain ⟨master_count, hcount, hm⟩ := countOf_holds hascii hfits
  have hkeys : subset.keys.Nodup := Std.TreeMap.nodup_keys
  constructor
  · rintro ⟨master_count', hcount', j, k, rest, ys, hj, rfl, hdrawn, hdesc⟩
    obtain rfl := Except.ok.inj (hcount.symm.trans hcount')
    obtain ⟨htaken, hlt⟩ :=
      (descends_of_suffice (hp.lesser hascii) hfits hm hsuffice hj hdrawn).mp hdesc
    rw [List.drop_drop] at hj
    obtain ⟨hplace, hall⟩ := (drawn_from_place hkeys).mp ⟨rest, hj, hdrawn⟩
    obtain ⟨hmem, hsorted⟩ := (drawn_keys_iff subset _).mp hall
    exact ⟨by simp, ⟨j, hplace⟩, hmem, hsorted, htaken, hlt⟩
  · rintro ⟨hne, ⟨j, hplace⟩, hmem, hsorted, htaken, hlt⟩
    obtain ⟨k, ys, rfl⟩ := List.exists_cons_of_ne_nil hne
    obtain ⟨rest, hj, hdrawn⟩ := (drawn_from_place hkeys).mpr
      ⟨hplace, (drawn_keys_iff subset _).mpr ⟨hmem, hsorted⟩⟩
    rw [← List.drop_drop] at hj
    exact ⟨master_count, hcount, j, k, rest, ys, hj, rfl, hdrawn,
      (descends_of_suffice (hp.lesser hascii) hfits hm hsuffice hj hdrawn).mpr ⟨htaken, hlt⟩⟩

/-- For every phrase and every subset of partials, the accesses to the array stay inside it when
the search never goes on from 66 words, and in a run that no table ends early only then. Where no
counter overflows, these are 66 words that together leave some letters of the phrase. -/
theorem the_array_suffices_iff_no_66_words_leave_letters (hp : Partials word subset.keys)
    (hcpu : 1 ≤ cpu_tot) (hfuel : subset.keys.length + 67 ≤ fuel) (flags : AnagramFlags)
    (thread_index : Int) (w : World) :
    ((∀ ws, GoesOn flags cpu_tot word subset thread_index ws → ws.length ≤ 65) →
      SlotsInRange fuel cpu_tot flags word subset thread_index w) ∧
    (CountsSucceed fuel cpu_tot flags word subset thread_index w →
      SlotsInRange fuel cpu_tot flags word subset thread_index w →
      ∀ ws, GoesOn flags cpu_tot word subset thread_index ws → ws.length ≤ 65) ∧
    (Ascii word → Fits (letters word) →
      CountersSuffice flags cpu_tot word subset.keys thread_index →
      (SlotsInRange fuel cpu_tot flags word subset thread_index w ↔
        ∀ ws, LeavesLetters flags cpu_tot word subset thread_index ws → ws.length ≤ 65)) := by
  have hsufficient : (∀ ws, GoesOn flags cpu_tot word subset thread_index ws → ws.length ≤ 65) →
      SlotsInRange fuel cpu_tot flags word subset thread_index w := by
    intro h depth hslot
    obtain ⟨ws, hgoes, hlen⟩ := goesOn_of_slot hslot
    have := h ws hgoes
    omega
  refine ⟨hsufficient, fun hcounts hslots ws h => length_le_of_slots hp hcpu hfuel hcounts hslots h,
    fun hascii hfits hsuffice => ?_⟩
  have hsame := goesOn_iff_leavesLetters hp hascii hfits hsuffice
  constructor
  · intro hslots ws h
    refine length_le_of_slots hp hcpu hfuel (fun e he => ?_) hslots ((hsame ws).mpr h)
    exact (thread_exact (hp.lesser hascii) hfits hascii hsuffice fuel w e he).succeeds
  · exact fun h => hsufficient fun ws hgoes => h ws ((hsame ws).mp hgoes)

theorem the_array_suffices_for_abc :
    (∃ depth, .slot depth ∈ (combineSubsetsFastInSteps 70 1 ⟨true, false, false⟩ (bytes "abc")
      (subsetOf [bytes "a", bytes "b", bytes "c"]) 0 .start).steps) ∧
    SlotsInRange 70 1 ⟨true, false, false⟩ (bytes "abc")
      (subsetOf [bytes "a", bytes "b", bytes "c"]) 0 .start := by
  have hp : Partials (bytes "abc") (subsetOf [bytes "a", bytes "b", bytes "c"]).keys := by decide
  have hb : InBounds (bytes "abc") := .of_length_le (by decide +kernel) (by decide)
  constructor
  · by_contra hnone
    have hsome : ¬ ∀ e ∈ (combineSubsetsFastInSteps 70 1 ⟨true, false, false⟩ (bytes "abc")
        (subsetOf [bytes "a", bytes "b", bytes "c"]) 0 .start).steps, e.Within 0 := by
      decide +kernel
    refine hsome fun e he => HashStep.within_iff.mpr ?_
    rintro depth rfl
    exact absurd ⟨depth, he⟩ hnone
  · refine ((the_array_suffices_iff_no_66_words_leave_letters hp le_rfl (by decide)
      ⟨true, false, false⟩ 0 .start).2.2 hb.ascii (hb.fits le_rfl)
      (hb.countersSuffice (hp.lesser hb.ascii) _ 1 0)).mpr fun ws h => ?_
    have hlen := length_le_card hp fun w hw => Std.TreeMap.mem_keys.mpr (h.mem w hw)
    have hcard := Multiset.card_lt_card h.total_lt
    have hmax := hb.card_le
    omega

/-! ## A phrase that is too long -/

/-- The phrase of `n` letters a. -/
def manyAs (n : Nat) : Text := List.replicate n 97

theorem letters_manyAs (n : Nat) : letters (manyAs n) = Multiset.replicate n 97 := by
  unfold letters manyAs
  rw [List.filter_replicate_of_pos (by decide)]
  rfl

theorem total_replicate_a (n : Nat) :
    total letters (List.replicate n (bytes "a")) = Multiset.replicate n 97 := by
  have ha : letters (bytes "a") = {97} := by decide
  unfold total
  rw [List.map_replicate, List.sum_replicate, ha, Multiset.nsmul_singleton]

theorem fits_manyAs {n : Nat} (hn : n ≤ 127) : Fits (letters (manyAs n)) := by
  rw [letters_manyAs]
  refine ⟨fun c hc => ?_, fun c => ?_, ?_⟩
  · rw [Multiset.eq_of_mem_replicate hc]
    decide
  · rw [Multiset.count_replicate]
    split_ifs <;> omega
  · have hsub : (Multiset.replicate n (97 : UInt8)).toFinset ⊆ {97} := fun c hc =>
      Finset.mem_singleton.mpr (Multiset.eq_of_mem_replicate (Multiset.mem_toFinset.mp hc))
    exact (Finset.card_le_card hsub).trans (by decide)

/-- For 67 letters a and the one word a, the search goes on from 66 words, which leave one
letter. -/
theorem the_phrase_of_67_a_overruns_the_array :
    Partials (manyAs 67) (subsetOf [bytes "a"]).keys ∧
      ¬ SlotsInRange 70 1 ⟨true, false, false⟩ (manyAs 67) (subsetOf [bytes "a"]) 0 .start := by
  have hkeys : (subsetOf [bytes "a"]).keys = [bytes "a"] := by decide
  have ha : letters (bytes "a") = {97} := by decide
  have hlt : ∀ n < 67, (Multiset.replicate n (97 : UInt8)) < letters (manyAs 67) := by
    intro n hn
    rw [letters_manyAs]
    exact Multiset.lt_iff_cons_le.mpr ⟨97, by
      rw [← Multiset.replicate_succ]
      exact (Multiset.replicate_le_replicate _).mpr hn⟩
  have hp : Partials (manyAs 67) (subsetOf [bytes "a"]).keys := by
    intro k hk
    rw [hkeys, List.mem_singleton] at hk
    subst hk
    exact ⟨by decide, by decide, by rw [ha]; exact hlt 1 (by omega)⟩
  have hascii : Ascii (manyAs 67) := by
    intro c hc
    rw [List.eq_of_mem_replicate hc]
    decide
  have hfits : Fits (letters (manyAs 67)) := fits_manyAs (by omega)
  have hsuffice : CountersSuffice ⟨true, false, false⟩ 1 (manyAs 67) (subsetOf [bytes "a"]).keys
      0 := by
    intro j k rest ys l hj hdrawn _ hless c
    have hl : l ∈ (subsetOf [bytes "a"]).keys := mem_of_drawn hj hdrawn l (by simp)
    rw [hkeys, List.mem_singleton] at hl
    subst hl
    have hcard := Multiset.card_lt_card hless
    rw [letters_manyAs, Multiset.card_replicate] at hcard
    refine (Multiset.count_le_card c _).trans ?_
    rw [Multiset.card_add, ha, Multiset.card_singleton]
    omega
  refine ⟨hp, fun hslots => ?_⟩
  have hleaves : LeavesLetters ⟨true, false, false⟩ 1 (manyAs 67) (subsetOf [bytes "a"]) 0
      (List.replicate 66 (bytes "a")) := by
    refine ⟨by simp, ⟨0, by rw [hkeys]; rfl⟩, fun w hw => ?_, ?_, Or.inl rfl, ?_⟩
    · rw [List.eq_of_mem_replicate hw]
      exact Std.TreeMap.mem_keys.mp (by simp [hkeys])
    · exact List.pairwise_replicate.mpr (Or.inr (by decide))
    · rw [total_replicate_a]
      exact hlt 66 (by omega)
  have hgoes := (goesOn_iff_leavesLetters hp hascii hfits hsuffice _).mpr hleaves
  have hlen := length_le_of_slots hp le_rfl (by rw [hkeys]; decide) (fun e he =>
    (thread_exact (hp.lesser hascii) hfits hascii hsuffice 70 .start e he).succeeds) hslots hgoes
  rw [List.length_replicate] at hlen
  omega

end anagram
