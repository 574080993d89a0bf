-- What the program is to print. Its answers are the words of the dictionaries that
-- have the letters of the input, and the phrases of two or more words in order
-- that have them together, less whatever has an excluded word. The law: the job
-- that the program makes of its arguments has the answers to write, each once.
import Anagram.Program
import Anagram.DirectOutput

open outcome pruned_search delimited

namespace anagram

/-! ## The dictionaries -/

/-- The lines of the dictionaries that are read. -/
def dictionaryLines (env : Surroundings) (a : Arguments) : List Text :=
  env.dict_no_abbreviations.elim [] (lines 10) ++
    if a.big_dictionary then env.bigdict.elim [] (lines 10) else []

/-- How many bytes they have, at most. -/
def dictionarySize (env : Surroundings) : Nat :=
  env.dict_no_abbreviations.elim 0 List.length + env.bigdict.elim 0 List.length

theorem readDictionaryPath_holding {T : Trie} {S : Text → Prop} {n fuel : Nat}
    (h : Holding T S n) (file : Option Text) (hplain : ∀ l ∈ file.elim [] (lines 10), Plain l)
    (hfuel : n + file.elim 0 List.length < fuel) :
    ∃ T', readDictionaryPath fuel file T = .ok T' ∧
      Holding T' (fun x => S x ∨ Stored (file.elim [] (lines 10)) x)
        (n + file.elim 0 List.length) := by
  cases file with
  | none =>
    refine ⟨T, readDictionaryPath_none (by omega) T, h.of_iff (fun x => ?_) (by simp)⟩
    simp [Stored]
  | some content => exact readDictionaryFile_holding h hplain hfuel

/-- The trie has the words of the lines, in lower case. -/
theorem loadDictionaries_holding {env : Surroundings} {a : Arguments}
    (hplain : ∀ l ∈ dictionaryLines env a, Plain l) {fuel : Nat}
    (hfuel : dictionarySize env < fuel) :
    ∃ T, loadDictionaries fuel env a = .ok T ∧
      Holding T (Stored (dictionaryLines env a)) (dictionarySize env) := by
  unfold dictionarySize at hfuel
  obtain ⟨T, hread, hT⟩ := readDictionaryPath_holding holding_empty env.dict_no_abbreviations
    (fun l hl => hplain l (List.mem_append_left _ hl)) (by omega : _ < fuel)
  unfold loadDictionaries
  rw [hread, bind_ok]
  cases hbig : a.big_dictionary with
  | false =>
    refine ⟨T, rfl, hT.of_iff (fun x => ?_) (by unfold dictionarySize; omega)⟩
    simp [dictionaryLines, hbig]
  | true =>
    have hplain' : ∀ l ∈ env.bigdict.elim [] (lines 10), Plain l := fun l hl =>
      hplain l (List.mem_append_right _ (by simpa [hbig] using hl))
    obtain ⟨T', hread', hT'⟩ := readDictionaryPath_holding hT env.bigdict hplain'
      (by omega : _ < fuel)
    rw [if_pos rfl, hread']
    refine ⟨T', rfl, hT'.of_iff (fun x => ?_) (by unfold dictionarySize; omega)⟩
    simp [dictionaryLines, hbig, stored_append]

/-- A word is as plain as its lower case form. -/
theorem plain_of_lower {v w : Text} (h : lower v = lower w) (hw : Plain w) : Plain v := by
  obtain ⟨hne, hascii⟩ := hw
  refine ⟨?_, fun c hc => ?_⟩
  · rintro rfl
    rw [lower, lower, List.map_nil, eq_comm, List.map_eq_nil_iff] at h
    exact hne h
  · have hmem : tolower c ∈ lower w := h ▸ List.mem_map_of_mem hc
    have hbound := ascii_lower hascii _ hmem
    simp only [UInt8.lt_iff_toNat_lt, toNat_tolower, UInt8.reduceToNat] at hbound ⊢
    split_ifs at hbound <;> omega

/-- What is stored decides whether a dictionary can be gathered from. -/
theorem Gatherable.congr {us vs : List Text} (h : Gatherable us)
    (hsame : ∀ x, Stored vs x ↔ Stored us x) : Gatherable vs := by
  have hlower : ∀ v ∈ vs, ∃ u ∈ us, lower v = lower u := fun v hv => (hsame _).mp ⟨v, hv, rfl⟩
  refine ⟨fun v hv => ?_, fun v hv hspace => ?_, fun v hv => ?_, fun c n => ?_⟩
  · obtain ⟨u, hu, heq⟩ := hlower v hv
    exact plain_of_lower heq (h.plain u hu)
  · have hstored : Stored us (lower v) := (hsame _).mp ⟨v, hv, rfl⟩
    exact h.space_free_stored hstored (List.mem_map.mpr ⟨0x20, hspace, by decide⟩)
  · exact h.fits_stored ((hsame _).mp ⟨v, hv, rfl⟩)
  · have hperm : (vs.map lower).dedup.Perm (us.map lower).dedup := by
      apply (List.perm_ext_iff_of_nodup (List.nodup_dedup _) (List.nodup_dedup _)).mpr
      intro x
      rw [List.mem_dedup, List.mem_dedup, List.mem_map, List.mem_map]
      simpa only [Stored, eq_comm] using hsame x
    apply le_of_eq_of_le _ (h.sharing_le c n)
    exact hperm.countP_eq _

/-! ## The answers -/

/-- The words of a phrase that the program is to print: at least two words of the dictionaries that
are not excluded, in order, with the letters of the input together. Without -d, the second word is
not the first one. -/
structure WordsAnswer (lines : List Text) (excluded : Text → Prop) (flags : AnagramFlags)
    (word : Text) (ws : List Text) : Prop where
  two_le : 2 ≤ ws.length
  stored : ∀ w ∈ ws, Stored lines w ∧ ¬ excluded w
  sorted : ws.Pairwise fun a b => (compare a b).isLE
  total_eq : total letters ws = letters word
  emitted : Emitted flags ws

/-- What the program is to print: the words that have the letters of the input, and the phrases. -/
def Answer (lines : List Text) (excluded : Text → Prop) (flags : AnagramFlags) (word x : Text) :
    Prop :=
  (Stored lines x ∧ ¬ excluded x ∧ letters x = letters word) ∨
    ∃ ws, WordsAnswer lines excluded flags word ws ∧ x = phrase ws

theorem letters_pos {w : Text} (hne : w ≠ []) (hfree : (0x20 : UInt8) ∉ w) : 0 < letters w := by
  rw [pos_iff_ne_zero]
  intro h
  have hmem : w.head hne ∈ letters w := by
    rw [mem_letters]
    exact ⟨List.head_mem hne, fun heq => hfree (heq ▸ List.head_mem hne)⟩
  simp [h] at hmem

/-- Each word of a phrase has fewer letters than the phrase, for the others have some. -/
theorem WordsAnswer.lt {lines : List Text} {excluded : Text → Prop} {flags : AnagramFlags}
    {word : Text} {ws : List Text} (h : WordsAnswer lines excluded flags word ws)
    (hlines : Gatherable lines) {w : Text} (hw : w ∈ ws) : letters w < letters word := by
  have hperm := List.perm_cons_erase hw
  have htotal : total letters ws = letters w + total letters (ws.erase w) :=
    (hperm.map letters).sum_eq
  rw [← h.total_eq, htotal, lt_add_iff_pos_right]
  obtain ⟨v, rest, hrest⟩ : ∃ v rest, ws.erase w = v :: rest := by
    apply List.exists_cons_of_length_pos
    have htwo := h.two_le
    rw [List.length_erase_of_mem hw]
    omega
  have hv : v ∈ ws := List.mem_of_mem_erase (by rw [hrest]; exact List.mem_cons_self)
  have hstored := (h.stored v hv).1
  rw [hrest, total_cons]
  apply add_pos_of_pos_of_nonneg
  · exact letters_pos (hlines.ne_nil_of_stored hstored) (hlines.space_free_stored hstored)
  · exact bot_le

/-- The words of a phrase are a combination of the words that are smaller than the input. -/
theorem combination_iff {lines : List Text} (hlines : Gatherable lines) {excluded : Text → Prop}
    {flags : AnagramFlags} {word : Text} {subset : StringMap}
    (hsubset : ∀ x, x ∈ subset ↔ Stored lines x ∧ ¬ excluded x ∧ letters x < letters word)
    (ws : List Text) :
    Combination word subset ws ∧ Emitted flags ws ↔ WordsAnswer lines excluded flags word ws := by
  constructor
  · rintro ⟨h, hemitted⟩
    refine ⟨h.two_le, fun w hw => ?_, h.sorted, h.total_eq, hemitted⟩
    obtain ⟨hstored, hout, -⟩ := (hsubset w).mp (h.mem w hw)
    exact ⟨hstored, hout⟩
  · intro h
    refine ⟨⟨h.two_le, fun w hw => ?_, h.sorted, h.total_eq⟩, h.emitted⟩
    obtain ⟨hstored, hout⟩ := h.stored w hw
    exact (hsubset w).mpr ⟨hstored, hout, h.lt hlines hw⟩

/-- The same words are stored, so there are the same answers. -/
theorem Answer.congr {us vs : List Text} (hsame : ∀ x, Stored us x ↔ Stored vs x)
    {excluded excluded' : Text → Prop} (hexcluded : ∀ x, excluded x ↔ excluded' x)
    {flags flags' : AnagramFlags} (hdupes : flags.allow_dupes = flags'.allow_dupes)
    {word word' : Text} (hletters : letters word = letters word') {x : Text}
    (h : Answer us excluded flags word x) : Answer vs excluded' flags' word' x := by
  rcases h with ⟨hstored, hout, heq⟩ | ⟨ws, hws, rfl⟩
  · exact Or.inl ⟨(hsame x).mp hstored, fun hx => hout ((hexcluded x).mpr hx), heq.trans hletters⟩
  · refine Or.inr ⟨ws, ⟨hws.two_le, fun w hw => ?_, hws.sorted, hws.total_eq.trans hletters, ?_⟩,
      rfl⟩
    · obtain ⟨hstored, hout⟩ := hws.stored w hw
      exact ⟨(hsame w).mp hstored, fun hx => hout ((hexcluded w).mpr hx)⟩
    · have hemitted := hws.emitted
      unfold Emitted at hemitted ⊢
      rw [← hdupes]
      exact hemitted

/-! ## The job has the answers -/

theorem one_le_coreTot (hardware_concurrency : Nat) : 1 ≤ coreTot hardware_concurrency := by
  unfold coreTot
  split_ifs <;> omega

/-- The job, once the gather block has run. -/
theorem programJob_eq {T : Trie} {columns : Text → Nat → Nat} {fuel : Nat} {env : Surroundings}
    {a : Arguments} {prior master_count : OccupancyHash} {s : GatherState}
    (hmaster : OccupancyHash.ofWord prior a.word = .ok master_count)
    (hgather : gather T columns 0 fuel a.flags a.excludeset master_count a.word
      ⟨fun _ => false, OccupancyHash.new, ∅, .start⟩ = .ok s) :
    programJob T columns fuel env a prior = .ok ⟨coreTot env.hardware_concurrency, env.params_ok,
      env.handles_ok, env.create_error, s.subset.keys,
      (emissions a.flags .start s.world).map Effect.text, fun i subset =>
        (threadSearch 64 fuel (coreTot env.hardware_concurrency) a.flags a.word subset i).map
          fun L => L.map fun ws => emittedText a.flags (phrase ws)⟩ := by
  unfold programJob
  rw [hmaster, bind_ok, hgather]
  rfl

section
variable {T : Trie} {t : search_trie.Tst UInt8} {words : List Text} (hbuilt : Built T t words)
  (hwords : Gatherable words) (columns : Text → Nat → Nat) {fuel : Nat}
  (hfuel : (words.map List.length).sum + 67 ≤ fuel) (env : Surroundings) {a : Arguments}
  (hb : InBounds a.word) {prior : OccupancyHash} (hprior : prior.Cleared)
include hbuilt hwords hfuel hb hprior

/-- What the workers have to write are the answers, each once, and every search ends. -/
theorem programJob_writes :
    ∃ (job : SearchJob) (answers : List Text), programJob T columns fuel env a prior = .ok job ∧
      job.thread_tot = coreTot env.hardware_concurrency ∧ job.params_ok = env.params_ok ∧
      job.handles_ok = env.handles_ok ∧ job.create_error = env.create_error ∧
      (∀ i, (job.found i job.gathered).isOk = true) ∧ (∀ key ∈ job.gathered, Ascii key) ∧
      job.writes = answers.map (emittedText a.flags) ∧ answers.Nodup ∧
      ∀ x, x ∈ answers ↔ Answer words (· ∈ a.excludeset) a.flags a.word x := by
  have hfuel' : (words.map List.length).sum < fuel := by omega
  have hfits : Fits (letters a.word) := hb.fits le_rfl
  obtain ⟨master_count, hmaster, hholds⟩ := OccupancyHash.getCharCountMap_holds a.word hb.ascii
    hprior.holds (by simpa using hfits)
  rw [zero_add] at hholds
  obtain ⟨s, hgather, hdone⟩ := gather_logged hbuilt hwords columns hfuel' a.flags a.excludeset
    hholds hfits hb.ascii
  obtain ⟨hpartials, hlength⟩ :=
    partials_of_gathered hbuilt hwords columns hfuel' a.excludeset hb.ascii
  have hkept : s.subset =
      mapOf (partialsOf a.word a.excludeset (gatheredWords T columns fuel a.word)) :=
    hdone.logged.subset_eq
  rw [← hkept] at hpartials hlength
  obtain ⟨L, hL, hnodup, hmemL, -⟩ := threads_find hb hpartials a.flags
    (one_le_coreTot env.hardware_concurrency) (by omega : s.subset.keys.length + 67 ≤ fuel)
  -- the words of the subset are the smaller ones, and the combinations of them the answers
  have hsubset : ∀ x, x ∈ s.subset ↔
      Stored words x ∧ x ∉ a.excludeset ∧ letters x < letters a.word := fun x => by
    rw [hkept, mem_mapOf]
    exact mem_partialsOf_gathered hbuilt hwords columns hfuel' hb.ascii a.excludeset x
  have hcombination := fun ws => (hmemL ws).trans (combination_iff hwords hsubset ws)
  have hsingles := mem_anagramsOf_gathered hbuilt hwords columns hfuel' hb.ascii a.excludeset
  have hfree : ∀ k ∈ s.subset, (0x20 : UInt8) ∉ k := fun k hk =>
    (hpartials k (Std.TreeMap.mem_keys.mpr hk)).2.1
  have hcombs : ∀ ws ∈ (List.range (coreTot env.hardware_concurrency)).flatMap L,
      Combination a.word s.subset ws := fun ws hws => ((hmemL ws).mp hws).1
  refine ⟨_, anagramsOf a.word a.excludeset (gatheredWords T columns fuel a.word) ++
      ((List.range (coreTot env.hardware_concurrency)).flatMap L).map phrase,
    programJob_eq hmaster hgather, rfl, rfl, rfl, rfl, fun i => ?_,
    fun key hkey => hpartials.ascii hb.ascii hkey, ?_, ?_, fun x => ?_⟩
  · dsimp only
    rw [hL]
    rfl
  · have hphrases : ∀ i : Nat, ((threadSearch 64 fuel (coreTot env.hardware_concurrency) a.flags
        a.word s.subset.keys i).map fun L => L.map fun ws => emittedText a.flags (phrase ws)) =
        .ok ((L i).map fun ws => emittedText a.flags (phrase ws)) := fun i => by
      rw [hL]
      rfl
    unfold SearchJob.writes SearchJob.phrases
    dsimp only
    simp only [hphrases, Except.toOption, Option.getD_some]
    rw [emissions, World.start, List.length_nil, List.drop_zero, hdone.logged.log_eq, List.map_map,
      List.map_append, List.map_map, List.map_flatMap]
    rfl
  · have hnodup' := nodup_phrases hfree hnodup hcombs
    obtain ⟨hgathered, -⟩ := gatheredWords_once hbuilt hwords columns hfuel' hb.ascii
    apply (hgathered.filter _).append hnodup'
    intro x hx hphrase
    obtain ⟨ws, hws, rfl⟩ := List.mem_map.mp hphrase
    exact hwords.space_free_stored ((hsingles _).mp hx).1 (hcombs ws hws).space_mem
  · rw [List.mem_append, hsingles, List.mem_map]
    unfold Answer
    simp only [hcombination, eq_comm]

end

end anagram
