-- The flag -o (main.cc). With it, the anagrams go to the output queue one by one,
-- and without it they go to a map that is printed at the end. The two paths
-- agree: what is pushed with -o are the keys that the map gets without it, in
-- the order in which it gets them, and each of them once.
import Anagram.GatherLog
import Anagram.SubsetRows
import Anagram.ThreadFinds
import Anagram.ExcludeLaws

open outcome pruned_search

namespace anagram

/-! ## The two paths of an emission -/

/-- The key that an effect writes to the map. -/
def Effect.written : Effect → Option Text
  | .write key => some key
  | .push _ => none

def AnagramFlags.toMap (flags : AnagramFlags) : AnagramFlags :=
  { flags with output_directly := false }

def AnagramFlags.toQueue (flags : AnagramFlags) : AnagramFlags :=
  { flags with output_directly := true }

/-- In the map mode, the emissions are the writes. -/
theorem filterMap_written (flags : AnagramFlags) (effects : List Effect) :
    (effects.filter (isEmission flags.toMap)).filterMap Effect.written =
      effects.filterMap Effect.written := by
  induction effects with
  | nil => rfl
  | cons e effects ih =>
    cases e with
    | write key =>
      rw [List.filter_cons_of_pos rfl]
      simp only [List.filterMap_cons, Effect.written, ih]
    | push text =>
      rw [List.filter_cons_of_neg (by simp [isEmission, AnagramFlags.toMap])]
      simp only [List.filterMap_cons, Effect.written, ih]

theorem written_emissions (flags : AnagramFlags) {effects : List Effect} {L : List Text}
    (h : effects.filter (isEmission flags.toMap) = L.map (emission flags.toMap)) :
    effects.filterMap Effect.written = L := by
  rw [← filterMap_written flags, h, List.filterMap_map]
  exact List.filterMap_some

/-- The phrases that a search finds, emitted in the map mode. -/
theorem written_emitAll (flags : AnagramFlags) (L : List (List Text)) (w : World) :
    (emitAll flags.toMap L w).effects.filterMap Effect.written =
      w.effects.filterMap Effect.written ++ L.map phrase := by
  obtain ⟨more, hmore, hmap⟩ := emitAll_effects flags.toMap L w
  rw [hmore, List.filterMap_append]
  congr 1
  apply written_emissions flags
  rw [hmap, List.map_map]
  rfl

/-- The same, emitted to the queue. -/
theorem effects_emitAll_toQueue (flags : AnagramFlags) (L : List (List Text)) (w : World) :
    (emitAll flags.toQueue L w).effects =
      w.effects ++ L.map fun ws => .push (phrase ws ++ bytes "\n") := by
  induction L generalizing w with
  | nil => simp
  | cons ws L ih =>
    change (emitAll flags.toQueue L (emit flags.toQueue (phrase ws) w)).effects = _
    rw [ih]
    simp [emit, AnagramFlags.toQueue, World.push]

theorem anagrams_emitAll_toQueue (flags : AnagramFlags) (L : List (List Text)) (w : World) :
    (emitAll flags.toQueue L w).anagrams = w.anagrams := by
  induction L generalizing w with
  | nil => rfl
  | cons ws L ih =>
    change (emitAll flags.toQueue L (emit flags.toQueue (phrase ws) w)).anagrams = _
    rw [ih]
    rfl

/-- The search does not ask where its phrases go. -/
theorem threadSearch_toQueue (slots fuel cpu_tot : Nat) (flags : AnagramFlags) (word : Text)
    (subset : List Text) (thread_index : Int) :
    threadSearch slots fuel cpu_tot flags.toQueue word subset thread_index =
      threadSearch slots fuel cpu_tot flags.toMap word subset thread_index := rfl

/-! ## The gather block -/

section
variable {T : Trie} {t : search_trie.Tst UInt8} {words : List Text} (hbuilt : Built T t words)
  (hwords : Gatherable words) (columns : Text → Nat → Nat) {fuel : Nat}
  (hfuel : (words.map List.length).sum < fuel) (excludeset : StringMap) {phrase : Text}
  (hascii : Ascii phrase)
include hbuilt hwords hfuel hascii

/-- The gather block up to the output of the subset. -/
theorem gatherBlock_logged (hfits : Fits (letters phrase)) {prior : OccupancyHash}
    (hprior : prior.Cleared) (flags : AnagramFlags) :
    ∃ s, Logged flags excludeset phrase (gatheredWords T columns fuel phrase) s ∧
      gatherBlock T columns 0 fuel flags excludeset prior phrase (fun _ => false) ∅ .start =
        .ok (s.subset, if flags.print_subset then printSubset s.subset s.world else s.world) := by
  obtain ⟨master_count, hmaster, hholds⟩ := OccupancyHash.getCharCountMap_holds phrase hascii
    hprior.holds (by simpa using hfits)
  rw [zero_add] at hholds
  obtain ⟨s, hgather, hdone⟩ := gather_logged hbuilt hwords columns hfuel flags excludeset hholds
    hfits hascii
  refine ⟨s, hdone.logged, ?_⟩
  unfold gatherBlock OccupancyHash.ofWord
  rw [hmaster, bind_ok, hgather]
  rfl

/-- The subset that the gather block leaves has proper parts of the phrase, and no more of them
than there are stored words. -/
theorem partials_of_gathered :
    Partials phrase
        (mapOf (partialsOf phrase excludeset (gatheredWords T columns fuel phrase))).keys ∧
    (mapOf (partialsOf phrase excludeset (gatheredWords T columns fuel phrase))).keys.length ≤
      (words.map List.length).sum := by
  have hmem : ∀ x, x ∈ mapOf (partialsOf phrase excludeset (gatheredWords T columns fuel phrase)) ↔
      Stored words x ∧ x ∉ excludeset ∧ letters x < letters phrase := fun x => by
    rw [mem_mapOf, mem_partialsOf_gathered hbuilt hwords columns hfuel hascii]
  refine ⟨fun k hk => ?_, length_keys_le (fun x hx => ((hmem x).mp hx).1)
    fun x => hwords.ne_nil_of_stored⟩
  obtain ⟨hstored, -, hlt⟩ := (hmem k).mp (Std.TreeMap.mem_keys.mp hk)
  exact ⟨hwords.ne_nil_of_stored hstored, hwords.space_free_stored hstored, hlt⟩

end

/-! ## The two runs -/

theorem effects_printed (b : Bool) (subset : StringMap) (w : World) :
    (if b then printSubset subset w else w).effects =
      w.effects ++ if b then (subsetRows subset.keys).map Effect.push else [] := by
  cases b with
  | true => simp [printSubset_eq, effects_pushes]
  | false => simp

theorem anagrams_printed (b : Bool) (subset : StringMap) (w : World) :
    (if b then printSubset subset w else w).anagrams = w.anagrams := by
  split_ifs
  · exact printSubset_anagrams subset w
  · rfl

/-- The flag -o changes where the anagrams go, and nothing else. Two runs of the first thread, one
with it and one without: the map of the one gets the keys that the other pushes as lines, in the
same order, with the rows of the subset between those of one word and the phrases. No key comes
twice, and with -o the map stays empty. -/
theorem direct_output_is_what_the_map_gets {words : List Text} (hwords : Gatherable words)
    {word : Text} (hb : InBounds word) {fuel cpu_tot : Nat} (hcpu : 1 ≤ cpu_tot)
    (hfuel : (words.map List.length).sum + 67 ≤ fuel) (columns : Text → Nat → Nat)
    (flags : AnagramFlags) (excludeset : StringMap) {prior : OccupancyHash}
    (hprior : prior.Cleared) :
    ∃ T subset w d singles phrases, Trie.insertAll fuel words .empty = .ok T ∧
      getAnagrams T columns 0 fuel cpu_tot flags.toMap excludeset prior word 0 (fun _ => false) ∅
        .start = .ok (subset, w) ∧
      getAnagrams T columns 0 fuel cpu_tot flags.toQueue excludeset prior word 0
        (fun _ => false) ∅ .start = .ok (subset, d) ∧
      w.effects.filterMap Effect.written = singles ++ phrases ∧
      d.effects = singles.map (fun x => .push (x ++ bytes "\n")) ++
        (if flags.print_subset then (subsetRows subset.keys).map Effect.push else []) ++
        phrases.map (fun x => .push (x ++ bytes "\n")) ∧
      (singles ++ phrases).Nodup ∧ (∀ x, x ∈ w.anagrams ↔ x ∈ singles ++ phrases) ∧
      ∀ x, x ∉ d.anagrams := by
  have hfuel' : (words.map List.length).sum < fuel := by omega
  obtain ⟨T, t, hinsert, hbuilt⟩ :=
    insertAll_built (fun w hw => (hwords.plain w hw).storable) hfuel'
  obtain ⟨s, hs, hblock⟩ := gatherBlock_logged hbuilt hwords columns hfuel' excludeset hb.ascii
    (hb.fits le_rfl) hprior flags.toMap
  obtain ⟨u, hu, hblock'⟩ := gatherBlock_logged hbuilt hwords columns hfuel' excludeset hb.ascii
    (hb.fits le_rfl) hprior flags.toQueue
  have hsame : u.subset = s.subset := hu.subset_eq.trans hs.subset_eq.symm
  obtain ⟨hpartials, hlength⟩ := partials_of_gathered hbuilt hwords columns hfuel' excludeset
    hb.ascii
  rw [← hs.subset_eq] at hpartials hlength
  have hfuel₂ : s.subset.keys.length + 67 ≤ fuel := by omega
  obtain ⟨L, hL, -, -, hfound⟩ := threads_find hb hpartials flags.toMap hcpu hfuel₂
  have hfree : ∀ k ∈ s.subset, (0x20 : UInt8) ∉ k := fun k hk =>
    (hpartials k (Std.TreeMap.mem_keys.mpr hk)).2.1
  -- the words that the block writes, in its order
  obtain ⟨hnodup, -⟩ := gatheredWords_once hbuilt hwords columns hfuel' hb.ascii
  have hsingles := mem_anagramsOf_gathered hbuilt hwords columns hfuel' hb.ascii excludeset
  generalize gatheredWords T columns fuel word = gathered at *
  refine ⟨T, s.subset, emitAll flags.toMap (L 0)
      (if flags.print_subset then printSubset s.subset s.world else s.world),
    emitAll flags.toQueue (L 0)
      (if flags.print_subset then printSubset u.subset u.world else u.world),
    anagramsOf word excludeset gathered, (L 0).map phrase, hinsert, ?_, ?_, ?_, ?_, ?_, ?_, ?_⟩
  · unfold getAnagrams combineSubsetsFast
    rw [if_pos rfl, hblock, bind_ok]
    dsimp only
    rw [combineWith_eq, show threadSearch _ _ _ _ _ _ 0 = _ from hL 0]
    rfl
  · unfold getAnagrams combineSubsetsFast
    rw [if_pos rfl, hblock', bind_ok]
    dsimp only
    rw [combineWith_eq, threadSearch_toQueue, hsame, show threadSearch _ _ _ _ _ _ 0 = _ from hL 0]
    rfl
  · have hrows : (if flags.print_subset then (subsetRows s.subset.keys).map Effect.push
        else []).filterMap Effect.written = [] := by
      split_ifs
      · rw [List.filterMap_map]
        exact List.filterMap_eq_nil_iff.mpr fun _ _ => rfl
      · rfl
    rw [written_emitAll, effects_printed, List.filterMap_append, hrows, List.append_nil,
      written_emissions flags hs.log_eq]
  · have heffects : u.world.effects =
        (anagramsOf word excludeset gathered).map fun x => .push (x ++ bytes "\n") := by
      rw [← List.filter_eq_self.mpr (hu.no_messages rfl), hu.log_eq]
      rfl
    rw [effects_emitAll_toQueue, effects_printed, hsame, heffects, List.map_map]
    rfl
  · have hphrases := nodup_phrases hfree (hfound 0).1 (hfound 0).2
    apply (hnodup.filter _).append hphrases
    intro x hx hphrase
    obtain ⟨ws, hws, rfl⟩ := List.mem_map.mp hphrase
    have hstored := ((hsingles _).mp hx).1
    exact hwords.space_free_stored hstored ((hfound 0).2 ws hws).space_mem
  · intro x
    have hmap : flags.toMap.output_directly = false := rfl
    rw [mem_emitAll, anagrams_printed, hs.anagrams_eq, if_neg (by simp [hmap]), mem_mapOf,
      List.mem_append,
      List.mem_map]
    simp only [hmap, true_and, eq_comm]
  · intro x
    have hqueue : flags.toQueue.output_directly = true := rfl
    rw [anagrams_emitAll_toQueue, anagrams_printed, hu.anagrams_eq, if_pos hqueue]
    simp

/-- A few words of no more than 40 letters, none of them with a space. -/
theorem gatherable_of_short (words : List Text) (hshort : words.length ≤ 4096)
    (hwords : ∀ w ∈ words, Plain w ∧ (0x20 : UInt8) ∉ w ∧ w.length ≤ kMaxCharsPerWord) :
    Gatherable words := by
  refine ⟨fun w hw => (hwords w hw).1, fun w hw => (hwords w hw).2.1, fun w hw => ?_,
    fun c n => (sharing_le_length words c n).trans hshort⟩
  apply fits_of_length_le (ascii_lower (hwords w hw).1.2)
  simpa [lower] using (hwords w hw).2.2

theorem direct_output_of_ab_is_what_the_map_gets :
    ∃ T subset w d singles phrases,
      Trie.insertAll 80 [bytes "Ab", bytes "b", bytes "a"] .empty = .ok T ∧
      getAnagrams T (fun _ _ => 7) 0 80 1 ⟨false, false, true⟩ ∅ .new (bytes "b a") 0
        (fun _ => false) ∅ .start = .ok (subset, w) ∧
      getAnagrams T (fun _ _ => 7) 0 80 1 ⟨false, true, true⟩ ∅ .new (bytes "b a") 0
        (fun _ => false) ∅ .start = .ok (subset, d) ∧
      w.effects.filterMap Effect.written = singles ++ phrases ∧
      d.effects = singles.map (fun x => .push (x ++ bytes "\n")) ++
        (subsetRows subset.keys).map Effect.push ++
        phrases.map (fun x => .push (x ++ bytes "\n")) := by
  obtain ⟨T, subset, w, d, singles, phrases, hinsert, hmap, hqueue, hwritten, hpushed, -⟩ :=
    direct_output_is_what_the_map_gets
      (gatherable_of_short [bytes "Ab", bytes "b", bytes "a"] (by decide)
        (by decide +kernel))
      (.of_length_le (by decide +kernel) (by decide) : InBounds (bytes "b a")) (le_refl 1)
      (by decide : _ + 67 ≤ 80) (fun _ _ => 7) ⟨false, false, true⟩ ∅ OccupancyHash.cleared_new
  exact ⟨T, subset, w, d, singles, phrases, hinsert, hmap, hqueue, hwritten, hpushed⟩

end anagram
