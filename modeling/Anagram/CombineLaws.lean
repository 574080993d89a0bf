-- The laws of the combination search: within the bounds of the tables, the
-- threads together emit each combination of words with the letters of the
-- master exactly once, and without `-d` a word can still repeat.
import Anagram.CombineSearch

open outcome pruned_search

namespace anagram

/-! ## What a run emits -/

/-- The effect that emits a phrase: a push of its line, or a write to the map. -/
def emission (flags : AnagramFlags) (p : Text) : Effect :=
  if flags.output_directly then .push (p ++ bytes "\n") else .write p

/-- The other effects are the progress messages. -/
def isEmission (flags : AnagramFlags) : Effect → Bool
  | .write _ => !flags.output_directly
  | .push _ => flags.output_directly

/-- The emissions that came after `w`, oldest first. -/
def emissions (flags : AnagramFlags) (w w' : World) : List Effect :=
  (w'.effects.drop w.effects.length).filter (isEmission flags)

theorem emission_injective (flags : AnagramFlags) : Function.Injective (emission flags) := by
  intro p q h
  unfold emission at h
  split at h
  · exact List.append_cancel_right (Effect.push.inj h)
  · exact Effect.write.inj h

/-- An emission adds its effect, and at most a progress message that is none. -/
theorem emit_effects (flags : AnagramFlags) (p : Text) (w : World) :
    ∃ more, (emit flags p w).effects = w.effects ++ emission flags p :: more ∧
      more.filter (isEmission flags) = [] := by
  unfold emit emission
  by_cases hd : flags.output_directly = true
  · rw [if_pos hd, if_pos hd]
    exact ⟨[], rfl, rfl⟩
  · rw [if_neg hd, if_neg hd]
    dsimp only
    split
    · exact ⟨[.push (foundMessage (w.write p).anagrams.size)],
        by simp [World.push, World.write], by simp [isEmission, hd]⟩
    · exact ⟨[], rfl, rfl⟩

theorem emitAll_effects (flags : AnagramFlags) (L : List (List Text)) (w : World) :
    ∃ more, (emitAll flags L w).effects = w.effects ++ more ∧
      more.filter (isEmission flags) = L.map (fun ws => emission flags (phrase ws)) := by
  induction L generalizing w with
  | nil => exact ⟨[], by simp, rfl⟩
  | cons ws L ih =>
    obtain ⟨more, hmore, hnone⟩ := emit_effects flags (phrase ws) w
    obtain ⟨rest, hrest, hmap⟩ := ih (emit flags (phrase ws) w)
    have hself : isEmission flags (emission flags (phrase ws)) = true := by
      unfold emission
      split <;> simp_all [isEmission]
    refine ⟨emission flags (phrase ws) :: more ++ rest, ?_, ?_⟩
    · change (emitAll flags L (emit flags (phrase ws) w)).effects = _
      rw [hrest, hmore]
      simp
    · rw [List.filter_append, List.filter_cons_of_pos hself, hnone, hmap]
      rfl

theorem emissions_emitAll (flags : AnagramFlags) (L : List (List Text)) (w : World) :
    emissions flags w (emitAll flags L w) = L.map (fun ws => emission flags (phrase ws)) := by
  obtain ⟨more, hmore, hmap⟩ := emitAll_effects flags L w
  rw [emissions, hmore, List.drop_left, hmap]

/-! ## Phrases and their letters -/

/-- The words of a phrase of space-free words can be read back. -/
theorem splitOn_phrase {ws : List Text} (hne : ws ≠ []) (hws : ∀ w ∈ ws, (0x20 : UInt8) ∉ w) :
    (phrase ws).splitOn 0x20 = ws := List.splitOn_intercalate 0x20 hws hne

theorem letters_phrase (ws : List Text) : letters (phrase ws) = total letters ws := by
  induction ws using List.reverseRecOn with
  | nil => rfl
  | append_singleton ws k ih =>
    by_cases hws : ws = []
    · subst hws
      simp [phrase_singleton]
    · have hsp : letters [0x20] = 0 := letters_cons_space []
      rw [phrase_snoc hws, bytes_space, letters_append, letters_append, ih, hsp, total_append]
      simp

theorem ascii_phrase {ws : List Text} (hws : ∀ w ∈ ws, Ascii w) : Ascii (phrase ws) := by
  induction ws using List.reverseRecOn with
  | nil => simp [phrase, Ascii]
  | append_singleton ws k ih =>
    by_cases hne : ws = []
    · subst hne
      simpa [phrase_singleton] using hws
    · rw [phrase_snoc hne, bytes_space]
      intro c hc
      simp only [List.mem_append, List.mem_singleton] at hc
      rcases hc with (hc | rfl) | hc
      · exact ih (fun w hw => hws w (by simp [hw])) c hc
      · decide
      · exact hws k (by simp) c hc

/-- The master phrase is within the bounds of the tables: sums of two parts of it fit a counter,
and no combination needs more than 64 levels. -/
structure InBounds (word : Text) : Prop where
  ascii : Ascii word
  card_le : (letters word).card ≤ 66
  distinct_le : (letters word).toFinset.card ≤ 40
  count_le : ∀ c, (letters word).count c ≤ 63

/-- A phrase of at most 40 bytes is within the bounds. -/
theorem InBounds.of_length_le {word : Text} (hascii : Ascii word) (hlen : word.length ≤ 40) :
    InBounds word := by
  have hcard : (letters word).card ≤ 40 := (card_letters_le word).trans hlen
  refine ⟨hascii, hcard.trans (by decide), (Multiset.toFinset_card_le _).trans hcard, fun c => ?_⟩
  exact ((Multiset.count_le_card c _).trans hcard).trans (by decide)

/-- Every key of the subset is a proper partial of the master: a word without a space, with
letters of the master but not all of them. -/
def Partials (word : Text) (keys : List Text) : Prop :=
  ∀ k ∈ keys, k ≠ [] ∧ (0x20 : UInt8) ∉ k ∧ letters k < letters word

instance lettersDecidableLT : DecidableLT (Multiset UInt8) := decidableLTOfDecidableLE

instance (word : Text) (keys : List Text) : Decidable (Partials word keys) :=
  inferInstanceAs (Decidable (∀ k ∈ keys, k ≠ [] ∧ (0x20 : UInt8) ∉ k ∧
    letters k < letters word))

/-- The letters of the phrase would fit the tables twice over. There is no bound on how many they
are together. -/
structure FitsTwice (word : Text) : Prop where
  ascii : Ascii word
  distinct_le : (letters word).toFinset.card ≤ 40
  count_le : ∀ c, (letters word).count c ≤ 63

theorem InBounds.fitsTwice {word : Text} (h : InBounds word) : FitsTwice word :=
  ⟨h.ascii, h.distinct_le, h.count_le⟩

/-- A sum of two parts of the master fits the tables. -/
theorem FitsTwice.fits_add {word : Text} (h : FitsTwice word) {m n : Multiset UInt8}
    (hm : m ≤ letters word) (hn : n ≤ letters word) : Fits (m + n) := by
  have hin : ∀ c ∈ m + n, c ∈ letters word := by
    intro c hc
    rcases Multiset.mem_add.mp hc with hc | hc
    · exact Multiset.mem_of_le hm hc
    · exact Multiset.mem_of_le hn hc
  refine ⟨fun c hc => ?_, fun c => ?_, ?_⟩
  · exact (h.ascii c (mem_letters.mp (hin c hc)).1).2
  · have h1 := Multiset.count_le_of_le c hm
    have h2 := Multiset.count_le_of_le c hn
    have h3 := h.count_le c
    rw [Multiset.count_add]
    omega
  · refine (Finset.card_le_card fun c hc => ?_).trans h.distinct_le
    exact Multiset.mem_toFinset.mpr (hin c (Multiset.mem_toFinset.mp hc))

theorem FitsTwice.fits {word : Text} (h : FitsTwice word) {m : Multiset UInt8}
    (hm : m ≤ letters word) : Fits m := by
  simpa using h.fits_add hm (Multiset.zero_le _)

theorem InBounds.fits_add {word : Text} (h : InBounds word) {m n : Multiset UInt8}
    (hm : m ≤ letters word) (hn : n ≤ letters word) : Fits (m + n) := h.fitsTwice.fits_add hm hn

theorem InBounds.fits {word : Text} (h : InBounds word) {m : Multiset UInt8}
    (hm : m ≤ letters word) : Fits m := h.fitsTwice.fits hm

/-- A partial has only bytes of the master. -/
theorem Partials.ascii {word : Text} {keys : List Text} (hp : Partials word keys)
    (hw : Ascii word) {k : Text} (hk : k ∈ keys) : Ascii k := by
  obtain ⟨_, hsp, hlt⟩ := hp k hk
  intro c hc
  have hmem : c ∈ letters k := mem_letters.mpr ⟨hc, fun h => hsp (h ▸ hc)⟩
  exact hw c (mem_letters.mp (Multiset.mem_of_le hlt.le hmem)).1

theorem Partials.pos {word : Text} {keys : List Text} (hp : Partials word keys) :
    ∀ k ∈ keys, 0 < letters k := by
  intro k hk
  obtain ⟨hne, hsp, _⟩ := hp k hk
  obtain ⟨c, k, rfl⟩ := List.exists_cons_of_ne_nil hne
  have hc : c ≠ 0x20 := by
    rintro rfl
    simp at hsp
  rw [letters_cons hc]
  exact pos_iff_ne_zero.mpr (Multiset.cons_ne_zero)

/-- Every word of a phrase takes at least one letter. -/
theorem length_le_card {word : Text} {keys ws : List Text} (hp : Partials word keys)
    (hws : ∀ w ∈ ws, w ∈ keys) : ws.length ≤ (total letters ws).card := by
  induction ws with
  | nil => simp
  | cons w ws ih =>
    have h1 := Multiset.card_lt_card (hp.pos w (hws w List.mem_cons_self))
    have h2 := ih (fun v hv => hws v (List.mem_cons_of_mem _ hv))
    rw [total_cons, Multiset.card_add, List.length_cons]
    simp only [Multiset.card_zero] at h1
    omega

/-! ## The verdicts within the bounds -/

variable {word : Text} {keys : List Text} {flags : AnagramFlags} {master_count : OccupancyHash}
  {slots : Nat}

theorem countOf_holds {w : Text} (hw : Ascii w) (hf : Fits (letters w)) :
    ∃ h, countOf w = .ok h ∧ h.Holds (letters w) := by
  have h := OccupancyHash.getCharCountMap_holds w hw OccupancyHash.holds_new (by simpa using hf)
  simpa [countOf] using h

/-- The counters are large enough for the search over these keys: no sum that it compares
overflows a counter or the list of the characters. -/
structure SumsFit (word : Text) (keys : List Text) : Prop where
  ascii : Ascii word
  fits : Fits (letters word)
  sums_fit : ∀ ws k, (∀ w ∈ ws, w ∈ keys) → k ∈ keys → total letters ws < letters word →
    Fits (letters k + total letters ws)

/-- No sequence of these keys that leaves some letters needs an entry of the array past the
first `levels`. -/
def LevelsSuffice (levels : Nat) (word : Text) (keys : List Text) : Prop :=
  ∀ ws, (∀ w ∈ ws, w ∈ keys) → total letters ws < letters word → ws.length ≤ levels + 1

/-- The tables are large enough for the search over these keys: no sum that it compares overflows
a counter or the list of the characters, and no sequence needs more than 64 levels. -/
structure Roomy (word : Text) (keys : List Text) : Prop extends SumsFit word keys where
  length_le : ∀ ws, (∀ w ∈ ws, w ∈ keys) → total letters ws < letters word → ws.length ≤ 65

theorem FitsTwice.sumsFit (hf : FitsTwice word) (hp : Partials word keys) : SumsFit word keys :=
  ⟨hf.ascii, hf.fits le_rfl, fun _ k _ hk hlt => hf.fits_add (hp k hk).2.2.le hlt.le⟩

/-- There are fewer words in a sequence than letters in the phrase. -/
theorem Partials.levelsSuffice (hp : Partials word keys) :
    LevelsSuffice (letters word).card word keys := by
  intro ws hws hlt
  have hlen := length_le_card hp hws
  have hcard := Multiset.card_lt_card hlt
  omega

theorem InBounds.roomy (hb : InBounds word) (hp : Partials word keys) : Roomy word keys := by
  refine ⟨hb.fitsTwice.sumsFit hp, fun ws hws hlt => ?_⟩
  have hlen := length_le_card hp hws
  have hcard := Multiset.card_lt_card hlt
  have hmax := hb.card_le
  omega

/-- The count of a phrase of partials holds the letters of all of them. -/
theorem SumsFit.countOf_phrase (hs : SumsFit word keys) (hp : Partials word keys) {ws : List Text}
    (hws : ∀ w ∈ ws, w ∈ keys) (hle : total letters ws ≤ letters word) :
    ∃ h, countOf (phrase ws) = .ok h ∧ h.Holds (total letters ws) := by
  rw [← letters_phrase] at hle ⊢
  exact countOf_holds (ascii_phrase fun w hw => hp.ascii hs.ascii (hws w hw)) (hs.fits.mono hle)

/-- With counters large enough, the verdicts compare the letters so far with those of the
master. -/
theorem SumsFit.weighs (hs : SumsFit word keys) (hp : Partials word keys)
    (hm : master_count.Holds (letters word)) :
    Weighs (combineRules slots flags master_count) letters (letters word) keys := by
  intro ws k _ hlt hws hk _
  have hkle : letters k ≤ letters word := (hp k hk).2.2.le
  obtain ⟨a, ha, hha⟩ := hs.countOf_phrase hp hws hlt.le
  obtain ⟨b, hbk, hhb⟩ := countOf_holds (hp.ascii hs.ascii hk) (hs.fits.mono hkle)
  have hfits := hs.sums_fit ws k hws hk hlt
  obtain ⟨s, hsum, hhs⟩ := OccupancyHash.addAssign_holds hhb hha hfits
  obtain ⟨r, hr, hzero, hneg⟩ := OccupancyHash.compare_holds hhs hm hfits hs.fits
  have htotal : total letters (ws ++ [k]) = letters k + total letters ws := by
    rw [total_append, total_cons, total_nil, add_zero, add_comm]
  refine ⟨r, ?_, ?_, ?_⟩
  · simp only [combineRules, ha, hbk, bind_ok, hsum, hr]
  · rw [htotal]
    exact hzero
  · rw [htotal]
    exact hneg

section
variable (hs : SumsFit word keys) (hp : Partials word keys) {levels : Nat}
  (hlevels : LevelsSuffice levels word keys) (hslots : levels ≤ slots)
include hs hp hlevels hslots

theorem SumsFit.enter_ok {ws : List Text} (hws : ∀ w ∈ ws, w ∈ keys)
    (hlt : total letters ws < letters word) :
    (combineRules slots flags master_count).enter ws = .ok () := by
  have hlen := hlevels ws hws hlt
  obtain ⟨h, hh, _⟩ := hs.countOf_phrase hp hws hlt.le
  simp only [combineRules, hh, bind_ok]
  exact if_pos (by omega)

/-- With room enough, every search from partials ends: each word on the way down takes a letter
at least. -/
theorem SumsFit.search_ends (hm : master_count.Holds (letters word)) {fuel : Nat}
    (hfuel : levels + 2 ≤ fuel) {k : Text} {ks : List Text} (hks : ∀ l ∈ k :: ks, l ∈ keys) :
    ∃ L, search (combineRules slots flags master_count) Fault.out_of_fuel fuel [k] (k :: ks) =
      .ok L := by
  have hk : k ∈ keys := hks k List.mem_cons_self
  refine search_ok keys
    (fun ws => ws ≠ [] ∧ total letters ws < letters word ∧ ∀ w ∈ ws, w ∈ keys)
    (fun ws => levels + 1 - ws.length) ?_ fuel [k] (k :: ks) hks
    ⟨by simp, by simpa using (hp k hk).2.2, by simpa using hk⟩ (by omega)
  rintro ws l ⟨hne, hlt, hws⟩ hl hskip
  obtain ⟨r, hr, _, hneg⟩ := hs.weighs hp hm ws l hne hlt hws hl hskip
  refine ⟨r, hr, fun hr0 => ?_⟩
  have hdown := hneg.mp hr0
  have hgrown : ∀ w ∈ ws ++ [l], w ∈ keys :=
    List.forall_mem_append.mpr ⟨hws, List.forall_mem_singleton.mpr hl⟩
  have hlen := hlevels _ hgrown hdown
  refine ⟨hs.enter_ok hp hlevels hslots hgrown hdown, ⟨by simp, hdown, hgrown⟩, ?_⟩
  simp only [List.length_append, List.length_singleton] at hlen ⊢
  omega

end

/-- Within the bounds, the verdicts compare the letters so far with those of the master. -/
theorem combineRules_weighs (hb : InBounds word) (hp : Partials word keys)
    (hm : master_count.Holds (letters word)) :
    Weighs (combineRules slots flags master_count) letters (letters word) keys :=
  (hb.fitsTwice.sumsFit hp).weighs hp hm

/-- The phrase itself is never a partial, so no start is stuck. -/
theorem not_stuck (hp : Partials word keys) {k : Text} (hk : k ∈ keys) :
    (!flags.allow_dupes && k == word) = false := by
  have hne : k ≠ word := fun h => (hp k hk).2.2.ne (by rw [h])
  simp [hne]

/-- With room enough, the search of every thread ends. -/
theorem SumsFit.threadSearch_ends (flags : AnagramFlags) (hs : SumsFit word keys)
    (hp : Partials word keys) {levels : Nat} (hlevels : LevelsSuffice levels word keys)
    (hslots : levels ≤ slots) {fuel cpu_tot : Nat} (hcpu : 1 ≤ cpu_tot)
    (hfuel : keys.length + levels + 2 ≤ fuel) (thread_index : Int) :
    ∃ L, threadSearch slots fuel cpu_tot flags word keys thread_index = .ok L := by
  obtain ⟨master_count, hm, hholds⟩ := countOf_holds hs.ascii hs.fits
  have hsub : ∀ k ∈ keys.drop thread_index.toNat, k ∈ keys := fun k => List.mem_of_mem_drop
  rw [threadSearch, hm, bind_ok]
  refine sweep_ok (by omega) fuel _ ?_ ?_ ?_
  · rw [List.length_drop]
    omega
  · intro k hk
    refine ⟨not_stuck hp (hsub k hk), hs.enter_ok hp hlevels hslots ?_ ?_⟩
    · simpa using hsub k hk
    · simpa using (hp k (hsub k hk)).2.2
  · exact fun k ls hls => hs.search_ends hp hlevels hslots hholds (by omega)
      (fun l hl => hsub l (hls l hl))

theorem Roomy.threadSearch_ends (flags : AnagramFlags) (hr : Roomy word keys)
    (hp : Partials word keys) (hslots : 64 ≤ slots) {fuel cpu_tot : Nat} (hcpu : 1 ≤ cpu_tot)
    (hfuel : keys.length + 67 ≤ fuel) (thread_index : Int) :
    ∃ L, threadSearch slots fuel cpu_tot flags word keys thread_index = .ok L :=
  hr.toSumsFit.threadSearch_ends flags hp hr.length_le hslots hcpu (by omega) thread_index

/-- Within the bounds, the search of every thread ends. -/
theorem threadSearch_in_bounds (flags : AnagramFlags) (hb : InBounds word) (hp : Partials word keys)
    (hslots : 64 ≤ slots) {fuel cpu_tot : Nat} (hcpu : 1 ≤ cpu_tot)
    (hfuel : keys.length + 67 ≤ fuel) (thread_index : Int) :
    ∃ L, threadSearch slots fuel cpu_tot flags word keys thread_index = .ok L :=
  (hb.roomy hp).threadSearch_ends flags hp hslots hcpu hfuel thread_index

/-! ## Every search ends -/

theorem combineRules_widens {slots' : Nat} (h : slots ≤ slots') :
    Widens (combineRules slots flags master_count) (combineRules slots' flags master_count) where
  skip_eq := rfl
  verdict_eq := rfl
  enter_ok ws := by
    simp only [combineRules]
    intro he
    split_ifs at he with hlen
    rw [if_pos (hlen.trans (by omega))]
    exact he

/-- A search that ends finds the same in a longer array, and with more fuel. -/
theorem threadSearch_widens {fuel fuel' slots' cpu_tot : Nat} (hslots : slots ≤ slots')
    (hfuel : fuel ≤ fuel') {thread_index : Int} {L : List (List Text)}
    (h : threadSearch slots fuel cpu_tot flags word keys thread_index = .ok L) :
    threadSearch slots' fuel' cpu_tot flags word keys thread_index = .ok L := by
  unfold threadSearch at h ⊢
  obtain ⟨master_count, hm, hsweep⟩ := bind_eq_ok.mp h
  rw [hm, bind_ok]
  exact sweep_widens (combineRules_widens hslots) hfuel hfuel hsweep

/-- `CombineSubsetsFast` ends, with an array as long as the phrase has letters. The outer loop
moves on from every word of the subset, and its recursion is no deeper than there are letters. -/
theorem the_search_ends_and_never_stays_at_a_word (hf : FitsTwice word) (subset : StringMap)
    (hp : Partials word subset.keys) (flags : AnagramFlags) {cpu_tot : Nat} (hcpu : 1 ≤ cpu_tot)
    (thread_index : Int) (w : World) :
    (∀ key ∈ subset, ¬ (!flags.allow_dupes && key == word) = true) ∧
    ∃ w', ∀ slots fuel, (letters word).card ≤ slots →
      subset.size + (letters word).card + 2 ≤ fuel →
      combineWith slots fuel cpu_tot flags word subset.keys thread_index w = .ok w' := by
  constructor
  · intro key hkey
    rw [not_stuck hp (Std.TreeMap.mem_keys.mpr hkey)]
    decide
  · have hlength : subset.keys.length = subset.size := Std.TreeMap.length_keys
    obtain ⟨L, hL⟩ := (hf.sumsFit hp).threadSearch_ends flags hp hp.levelsSuffice le_rfl hcpu
      le_rfl thread_index
    refine ⟨emitAll flags L w, fun slots fuel hslots hfuel => ?_⟩
    rw [combineWith_eq, threadSearch_widens hslots (by omega) hL]
    rfl

theorem the_search_ends_for_a_and_b_of_ab :
    (∀ key ∈ subsetOf [bytes "a", bytes "b"], ¬ (!false && key == bytes "ab") = true) ∧
    ∃ w', ∀ slots fuel, (letters (bytes "ab")).card ≤ slots →
      (subsetOf [bytes "a", bytes "b"]).size + (letters (bytes "ab")).card + 2 ≤ fuel →
      combineWith slots fuel 1 ⟨false, false, false⟩ (bytes "ab")
        (subsetOf [bytes "a", bytes "b"]).keys 0 .start = .ok w' := by
  have hb : InBounds (bytes "ab") := .of_length_le (by decide +kernel) (by decide)
  exact the_search_ends_and_never_stays_at_a_word hb.fitsTwice (subsetOf [bytes "a", bytes "b"])
    (by decide) ⟨false, false, false⟩ le_rfl 0 .start

/-! ## Each combination once -/

/-- A combination: two or more keys of the subset, in the order of the map, that have together
the letters of the master. -/
structure Combination (word : Text) (subset : StringMap) (ws : List Text) : Prop where
  two_le : 2 ≤ ws.length
  mem : ∀ w ∈ ws, w ∈ subset
  sorted : ws.Pairwise (fun a b => (compare a b).isLE)
  total_eq : total letters ws = letters word

theorem unskipped_of_allow_dupes (hd : flags.allow_dupes = true) (ws ys : List Text) :
    Unskipped (combineRules slots flags master_count) ws ys := by
  induction ys generalizing ws with
  | nil => trivial
  | cons y ys ih => exact ⟨by simp [combineRules, hd], ih _⟩

theorem keys_pairwise (subset : StringMap) :
    subset.keys.Pairwise (fun a b => compare a b = .lt) := Std.TreeMap.ordered_keys

/-- Texts in order are known by what they have. -/
theorem eq_of_ordered {us vs : List Text} (hus : us.Pairwise fun x y => compare x y = .lt)
    (hvs : vs.Pairwise fun x y => compare x y = .lt) (h : ∀ x, x ∈ us ↔ x ∈ vs) : us = vs := by
  have hnodup : ∀ {ws : List Text}, ws.Pairwise (fun x y => compare x y = .lt) → ws.Nodup := by
    intro ws hws
    apply hws.imp
    rintro x _ hlt rfl
    rw [Std.ReflOrd.compare_self] at hlt
    cases hlt
  have hperm : us.Perm vs := (List.perm_ext_iff_of_nodup (hnodup hus) (hnodup hvs)).mpr h
  apply hperm.eq_of_pairwise _ hus hvs
  intro x y _ _ hxy hyx
  rw [Std.OrientedOrd.eq_swap, hyx] at hxy
  cases hxy

theorem drawn_keys_iff (subset : StringMap) (ws : List Text) :
    Drawn subset.keys ws ↔
      (∀ w ∈ ws, w ∈ subset) ∧ ws.Pairwise (fun a b => (compare a b).isLE) := by
  have hasymm : ∀ a b : Text, compare a b = .lt → ¬ compare b a = .lt := by
    intro a b h1 h2
    rw [Std.OrientedOrd.eq_swap, h2] at h1
    cases h1
  have hle : ∀ a b : Text, (a = b ∨ compare a b = .lt) ↔ (compare a b).isLE := by
    intro a b
    rw [Ordering.isLE_iff_eq_lt_or_eq_eq, Std.LawfulEqOrd.compare_eq_iff_eq, or_comm]
  rw [drawn_iff_sorted hasymm (keys_pairwise subset)]
  simp only [Std.TreeMap.mem_keys, hle]

/-- Within the bounds, the searches from all starts find the combinations. -/
theorem exists_foundFrom_combination (hb : InBounds word) {subset : StringMap}
    (hp : Partials word subset.keys) (hd : flags.allow_dupes = true)
    (hm : master_count.Holds (letters word)) (ws : List Text) :
    (∃ p, FoundFrom (combineRules slots flags master_count) subset.keys p ws) ↔
      Combination word subset ws := by
  rw [exists_foundFrom]
  have hacc : ∀ k ys, Drawn subset.keys (k :: ys) →
      (Accepted (combineRules slots flags master_count) [k] ys ↔
        ys ≠ [] ∧ total letters (k :: ys) = letters word) := by
    intro k ys hdr
    have hmem := hdr.mem
    have hk : k ∈ subset.keys := hmem k List.mem_cons_self
    rw [accepted_iff_total (combineRules_weighs hb hp hm) hp.pos [k] ys (by simp)
      (by simpa using (hp k hk).2.2) (by simpa using hk)
      (fun y hy => hmem y (List.mem_cons_of_mem _ hy))]
    simp [unskipped_of_allow_dupes hd]
  constructor
  · rintro ⟨k, ys, rfl, hdr, h⟩
    obtain ⟨hne, ht⟩ := (hacc k ys hdr).mp h
    obtain ⟨hmem, hsort⟩ := (drawn_keys_iff subset _).mp hdr
    have hpos := List.length_pos_iff.mpr hne
    exact ⟨by rw [List.length_cons]; omega, hmem, hsort, ht⟩
  · rintro ⟨hlen, hmem, hsort, ht⟩
    obtain ⟨k, ys, rfl⟩ := List.exists_cons_of_ne_nil (l := ws) (by rintro rfl; simp at hlen)
    have hdr := (drawn_keys_iff subset _).mpr ⟨hmem, hsort⟩
    have hne : ys ≠ [] := by
      rintro rfl
      simp at hlen
    exact ⟨k, ys, rfl, hdr, (hacc k ys hdr).mpr ⟨hne, ht⟩⟩

/-- The threads of a job, one after another. -/
def runThreads (fuel cpu_tot : Nat) (flags : AnagramFlags) (word : Text) (subset : StringMap)
    (order : List Nat) (w : World) : Run World :=
  order.foldlM (fun (w : World) (thread_index : Nat) =>
    combineSubsetsFast fuel cpu_tot flags word subset (thread_index : Int) w) w

theorem runThreads_eq {fuel cpu_tot : Nat} {subset : StringMap} {L : Nat → List (List Text)}
    (hL : ∀ t : Nat, threadSearch 64 fuel cpu_tot flags word subset.keys t = .ok (L t))
    (order : List Nat) (w : World) :
    runThreads fuel cpu_tot flags word subset order w =
      .ok (emitAll flags (order.flatMap L) w) := by
  induction order generalizing w with
  | nil => rfl
  | cons t order ih =>
    have hone : combineSubsetsFast fuel cpu_tot flags word subset t w =
        .ok (emitAll flags (L t) w) := by
      rw [combineSubsetsFast, combineWith_eq, hL]
      rfl
    rw [List.flatMap_cons, emitAll_append, ← ih]
    unfold runThreads
    rw [List.foldlM_cons, hone, bind_ok]

theorem phrase_inj {ws vs : List Text} (hws : ws ≠ []) (hvs : vs ≠ [])
    (h1 : ∀ w ∈ ws, (0x20 : UInt8) ∉ w) (h2 : ∀ w ∈ vs, (0x20 : UInt8) ∉ w)
    (h : phrase ws = phrase vs) : ws = vs := by
  rw [← splitOn_phrase hws h1, h, splitOn_phrase hvs h2]

/-- With `-d`, the threads of a job emit exactly the combinations, each of them once, in
whatever order the threads run. -/
theorem the_threads_emit_each_combination_once (hb : InBounds word) (subset : StringMap)
    (hp : Partials word subset.keys) (hd : flags.allow_dupes = true) {cpu_tot fuel : Nat}
    (hcpu : 1 ≤ cpu_tot) (hfuel : subset.keys.length + 67 ≤ fuel) (order : List Nat)
    (horder : order.Perm (List.range cpu_tot)) (w : World) :
    ∃ w', runThreads fuel cpu_tot flags word subset order w = .ok w' ∧
      (emissions flags w w').Nodup ∧
      ∀ e, e ∈ emissions flags w w' ↔
        ∃ ws, Combination word subset ws ∧ e = emission flags (phrase ws) := by
  obtain ⟨master_count, hm, hholds⟩ := countOf_holds hb.ascii (hb.fits le_rfl)
  choose L hL using fun t : Nat => threadSearch_in_bounds flags hb hp le_rfl hcpu hfuel (t : Int)
  have hsweep : ∀ t : Nat, sweep (combineRules 64 flags master_count) Fault.out_of_fuel
      (fun k => !flags.allow_dupes && k == word) fuel cpu_tot fuel (subset.keys.drop t) =
      .ok (L t) := by
    intro t
    have h := hL t
    rw [threadSearch, hm, bind_ok] at h
    exact h
  have hkeys : subset.keys.Nodup := Std.TreeMap.nodup_keys
  obtain ⟨hnodup, hmem⟩ := dealt_sweeps hkeys hcpu horder
    (fun t zs => mem_sweep _ _ (hsweep t) zs)
    (fun t => nodup_sweep hcpu _ _ (hkeys.sublist (List.drop_sublist _ _)) (hsweep t))
  simp only [exists_foundFrom_combination hb hp hd hholds] at hmem
  refine ⟨_, runThreads_eq hL order w, ?_, ?_⟩
  · rw [emissions_emitAll]
    refine hnodup.map_on fun ws hws vs hvs h => ?_
    have hw := (hmem ws).mp hws
    have hv := (hmem vs).mp hvs
    have hfree : ∀ us, Combination word subset us → ∀ u ∈ us, (0x20 : UInt8) ∉ u :=
      fun us hu u hmem => (hp u (Std.TreeMap.mem_keys.mpr (hu.mem u hmem))).2.1
    refine phrase_inj ?_ ?_ (hfree ws hw) (hfree vs hv) (emission_injective flags h)
    · rintro rfl
      exact absurd hw.two_le (by simp)
    · rintro rfl
      exact absurd hv.two_le (by simp)
  · intro e
    rw [emissions_emitAll, List.mem_map]
    simp only [hmem, eq_comm]

theorem the_threads_of_ab_emit_a_b_once :
    ∃ w', runThreads 70 2 ⟨true, false, false⟩ (bytes "ab") (subsetOf [bytes "a", bytes "b"])
        [1, 0] .start = .ok w' ∧
      (emissions ⟨true, false, false⟩ .start w').Nodup ∧
      ∀ e, e ∈ emissions ⟨true, false, false⟩ .start w' ↔
        ∃ ws, Combination (bytes "ab") (subsetOf [bytes "a", bytes "b"]) ws ∧
          e = emission ⟨true, false, false⟩ (phrase ws) :=
  the_threads_emit_each_combination_once
    (.of_length_le (by decide +kernel) (by decide))
    _ (by decide) rfl (by decide) (by decide) _ (by decide) _

end anagram
