-- What the exclude set changes. A run with excluded words keeps to the side of
-- one without: what it finds is what that one finds, less whatever has an
-- excluded word.
import Anagram.Arguments
import Anagram.GatherLaws
import Anagram.CombineLaws
import Anagram.DictionaryLaws
import Anagram.FuzzyFindLaws
import Anagram.MasterCount

open outcome pruned_search delimited

namespace anagram

/-! ## The exclude set of the arguments -/

/-- The text is a field of an `-e` argument, in lower case. -/
def Excluded (args : List Text) (x : Text) : Prop :=
  ∃ e, bytes "-e" ++ e ∈ args ∧ ∃ field ∈ e.splitOn 0x2c, x = lower field

theorem mem_excludeLoop (nchar parse : Text) (hparse : (0x2c : UInt8) ∉ parse)
    (excludeset : StringMap) (x : Text) :
    x ∈ excludeLoop nchar parse excludeset ↔
      x ∈ excludeset ∨ ∃ field ∈ (parse ++ nchar).splitOn 0x2c, x = lower field := by
  induction nchar generalizing parse excludeset with
  | nil =>
    unfold excludeLoop
    rw [mem_insert_one, List.append_nil, List.splitOn_eq_singleton hparse]
    simp [lower]
  | cons c nchar ih =>
    unfold excludeLoop
    split_ifs with hc
    · subst hc
      rw [ih [] List.not_mem_nil, mem_insert_one, List.splitOn_append_cons_self,
        List.splitOn_eq_singleton hparse]
      simp [lower, or_assoc]
    · have hmore : (0x2c : UInt8) ∉ parse ++ [c] := by
        simp [hparse, Ne.symm hc]
      rw [ih (parse ++ [c]) hmore]
      simp

theorem readFlag_excludeset {a a' : Arguments} {arg : Text} (h : readFlag a arg = some a')
    (x : Text) : x ∈ a'.excludeset ↔
      x ∈ a.excludeset ∨ ∃ e, arg = 0x65 :: e ∧ ∃ field ∈ e.splitOn 0x2c, x = lower field := by
  cases arg with
  | nil => cases h
  | cons c rest =>
    by_cases hc : c = 0x65
    · subst hc
      cases h
      rw [mem_excludeLoop rest [] List.not_mem_nil]
      simp
    · have hsame : a'.excludeset = a.excludeset := by
        unfold readFlag at h
        simp only [hc, if_false] at h
        split_ifs at h <;> cases h <;> rfl
      rw [hsame]
      simp [hc]

theorem readArgument_excludeset {a a' : Arguments} {arg : Text}
    (h : readArgument a arg = some a') (x : Text) :
    x ∈ a'.excludeset ↔ x ∈ a.excludeset ∨
      ∃ e, arg = bytes "-e" ++ e ∧ ∃ field ∈ e.splitOn 0x2c, x = lower field := by
  have hdash : bytes "-e" = [0x2d, 0x65] := by decide
  unfold readArgument at h
  rw [hdash]
  by_cases harg : arg.head? = some 0x2d
  · obtain ⟨rest, rfl⟩ := List.head?_eq_some_iff.mp harg
    rw [if_pos harg] at h
    split_ifs at h
    rw [readFlag_excludeset h]
    simp
  · rw [if_neg harg] at h
    cases h
    rw [or_iff_left]
    rintro ⟨e, rfl, -⟩
    exact harg rfl

/-- The exclude set has the fields of the `-e` arguments, in lower case, and no more. -/
theorem mem_excludeset {args : List Text} {o : Arguments} (h : parseArguments args = some o)
    (x : Text) : x ∈ o.excludeset ↔ Excluded args x := by
  have hfold : ∀ (args : List Text) (a a' : Arguments), args.foldlM readArgument a = some a' →
      (x ∈ a'.excludeset ↔ x ∈ a.excludeset ∨ Excluded args x) := by
    intro args
    induction args with
    | nil =>
      rintro a a' h
      cases h
      simp [Excluded]
    | cons arg args ih =>
      intro a a' h
      rw [List.foldlM_cons] at h
      obtain ⟨a₁, h₁, h⟩ := Option.bind_eq_some_iff.mp h
      rw [ih a₁ a' h, readArgument_excludeset h₁, or_assoc]
      apply or_congr_right
      unfold Excluded
      simp only [List.mem_cons, or_and_right, exists_or, eq_comm]
  unfold parseArguments at h
  obtain ⟨a, ha, h⟩ := Option.bind_eq_some_iff.mp h
  dsimp only at h
  split_ifs at h
  cases h
  have hstart := hfold args .start a ha
  simpa [Arguments.start] using hstart

/-! ## The gather phase -/

/-- The state of a run with an exclude set, beside that of a run without one. All words that either
has found are stored ones. -/
structure Beside (words : List Text) (excludeset : StringMap) (s t : GatherState) : Prop where
  completed : s.chars_completed = t.chars_completed
  tidy : s.candidate_count.Tidy
  tidy_free : t.candidate_count.Tidy
  anagrams : ∀ x, x ∈ s.world.anagrams ↔ x ∈ t.world.anagrams ∧ x ∉ excludeset
  subset : ∀ x, x ∈ s.subset ↔ x ∈ t.subset ∧ x ∉ excludeset
  stored_anagrams : ∀ x ∈ t.world.anagrams, Stored words x
  stored_subset : ∀ x ∈ t.subset, Stored words x

theorem zero_notMem_cString (s : Text) : 0 ∉ cString s := by
  intro hmem
  have hp := List.mem_takeWhile_imp hmem
  simp at hp

section
variable {found all : Text → Prop} {excludeset : StringMap}
  (h : ∀ w, found w ↔ all w ∧ w ∉ excludeset) {x : Text} {p : Prop}
include h

/-- A new word that is excluded makes no difference. -/
theorem filter_skip (hin : x ∈ excludeset) (w : Text) :
    found w ↔ (all w ∨ (w = x ∧ p)) ∧ w ∉ excludeset := by
  rw [h]
  constructor
  · rintro ⟨hw, hout⟩
    exact ⟨Or.inl hw, hout⟩
  · rintro ⟨hw | ⟨rfl, -⟩, hout⟩
    · exact ⟨hw, hout⟩
    · exact absurd hin hout

/-- A new word that is not excluded is new on both sides. -/
theorem filter_add (hout : x ∉ excludeset) (w : Text) :
    found w ∨ (w = x ∧ p) ↔ (all w ∨ (w = x ∧ p)) ∧ w ∉ excludeset := by
  rw [h]
  constructor
  · rintro (⟨hw, hnot⟩ | ⟨rfl, hp⟩)
    · exact ⟨Or.inl hw, hnot⟩
    · exact ⟨Or.inr ⟨rfl, hp⟩, hout⟩
  · rintro ⟨hw | ⟨rfl, hp⟩, hnot⟩
    · exact Or.inl ⟨hw, hnot⟩
    · exact Or.inr ⟨rfl, hp⟩

end

section
variable {words : List Text} {excludeset : StringMap} {flags : AnagramFlags}
  {master_count : OccupancyHash}

/-- An excluded candidate is passed over, and any other one is treated as it is without the exclude
set. -/
theorem consider_beside {s t t' : GatherState} (h : Beside words excludeset s t) {x : Text}
    (hx : Stored words x) (hbytes : cString x = x)
    (hrun : consider flags ∅ master_count t x = .ok t') :
    ∃ s', consider flags excludeset master_count s x = .ok s' ∧ Beside words excludeset s' t' := by
  have hfree : x ∉ (∅ : StringMap) := by simp
  obtain ⟨htidy, hchars, hanagrams, hsubset⟩ := consider_mem h.tidy_free hfree hrun
  rw [hbytes] at hanagrams hsubset
  have hstored : ∀ y ∈ t'.world.anagrams, Stored words y := by
    intro y hy
    rcases (hanagrams y).mp hy with hy | ⟨rfl, -⟩
    · exact h.stored_anagrams y hy
    · exact hx
  have hstored' : ∀ y ∈ t'.subset, Stored words y := by
    intro y hy
    rcases (hsubset y).mp hy with hy | ⟨rfl, -⟩
    · exact h.stored_subset y hy
    · exact hx
  by_cases hin : x ∈ excludeset
  · -- what the other run adds is an excluded word
    refine ⟨s, consider_excluded hin s, h.completed.trans hchars.symm, h.tidy, htidy, fun y => ?_,
      fun y => ?_, hstored, hstored'⟩
    · rw [hanagrams]
      exact filter_skip h.anagrams hin y
    · rw [hsubset]
      exact filter_skip h.subset hin y
  · have hends : ∃ s', consider flags excludeset master_count s x = .ok s' := by
      rw [consider_ok_iff hin h.tidy, ← consider_ok_iff hfree h.tidy_free]
      exact ⟨t', hrun⟩
    obtain ⟨s', hs'⟩ := hends
    obtain ⟨htidy', hchars', hanagrams', hsubset'⟩ := consider_mem h.tidy hin hs'
    rw [hbytes] at hanagrams' hsubset'
    refine ⟨s', hs', hchars'.trans (h.completed.trans hchars.symm), htidy', htidy, fun y => ?_,
      fun y => ?_, hstored, hstored'⟩
    · rw [hanagrams', hanagrams]
      exact filter_add h.anagrams hin y
    · rw [hsubset', hsubset]
      exact filter_add h.subset hin y

variable {T : Trie} {t : search_trie.Tst UInt8} (hbuilt : Built T t words)
  (hascii : ∀ x, Stored words x → Ascii x) (columns : Text → Nat → Nat) {fuel : Nat}
  (hfuel : (words.map List.length).sum < fuel)
include hbuilt hascii hfuel

theorem gatherLetter_beside {s u u' : GatherState} (h : Beside words excludeset s u) (c : UInt8)
    (hrun : gatherLetter T columns 0 fuel flags ∅ master_count u c = .ok u') :
    ∃ s', gatherLetter T columns 0 fuel flags excludeset master_count s c = .ok s' ∧
      Beside words excludeset s' u' := by
  unfold gatherLetter at hrun ⊢
  rw [h.completed]
  split_ifs at hrun ⊢
  · cases hrun
    exact ⟨s, rfl, h⟩
  · obtain ⟨m, hm, hstored⟩ := fuzzyFind_stored hbuilt hascii columns hfuel
      (zero_notMem_cString [c])
    rw [hm, bind_ok] at hrun
    rw [hm, bind_ok]
    refine foldlM_simulates m.toList (fun it hit s u u' h hrun => ?_) ?_ hrun
    · have hx := hstored it.1 it.2 (Std.TreeMap.mem_toList_iff_getElem?_eq_some.mp hit)
      exact consider_beside h hx (cString_of_ascii (hascii _ hx)) hrun
    · exact ⟨rfl, h.tidy, h.tidy_free, h.anagrams, h.subset, h.stored_anagrams, h.stored_subset⟩

theorem gather_beside {s u u' : GatherState} (h : Beside words excludeset s u) (phrase : Text)
    (hrun : gather T columns 0 fuel flags ∅ master_count phrase u = .ok u') :
    ∃ s', gather T columns 0 fuel flags excludeset master_count phrase s = .ok s' ∧
      Beside words excludeset s' u' := by
  unfold gather at hrun ⊢
  exact foldlM_simulates (Q := Beside words excludeset) (c_str phrase)
    (fun c _ _ _ _ h hrun => gatherLetter_beside hbuilt hascii columns hfuel h c hrun) h hrun

end

/-! ## The combination phase -/

/-- The keys of a filtered subset are the filtered keys, in the same order. -/
theorem keys_eq_filter {subset subset_free excludeset : StringMap}
    (h : ∀ x, x ∈ subset ↔ x ∈ subset_free ∧ x ∉ excludeset) :
    subset.keys = subset_free.keys.filter fun x => !excludeset.contains x := by
  have hperm : subset.keys.Perm (subset_free.keys.filter fun x => !excludeset.contains x) := by
    apply (List.perm_ext_iff_of_nodup Std.TreeMap.nodup_keys _).mpr
    · intro x
      rw [List.mem_filter, Std.TreeMap.mem_keys, Std.TreeMap.mem_keys, h, Bool.not_eq_true',
        ← Bool.not_eq_true, ← Std.TreeMap.mem_iff_contains]
    · exact Std.TreeMap.nodup_keys.filter _
  apply hperm.eq_of_pairwise _ (keys_pairwise subset) ((keys_pairwise subset_free).filter _)
  intro a b _ _ hab hba
  rw [Std.OrientedOrd.eq_swap, hba] at hab
  cases hab

/-- The map has a phrase when it had it before or the search has found it, unless anagrams go to
the queue directly. -/
theorem mem_emitAll (flags : AnagramFlags) (L : List (List Text)) (w : World) (x : Text) :
    x ∈ (emitAll flags L w).anagrams ↔
      x ∈ w.anagrams ∨ (flags.output_directly = false ∧ ∃ ws ∈ L, x = phrase ws) := by
  induction L generalizing w with
  | nil => simp
  | cons ws L ih =>
    have hone : x ∈ (emit flags (phrase ws) w).anagrams ↔
        x ∈ w.anagrams ∨ (flags.output_directly = false ∧ x = phrase ws) := by
      have hinsert : x ∈ (w.write (phrase ws)).anagrams ↔ x ∈ w.anagrams ∨ x = phrase ws :=
        mem_insert_one w.anagrams (phrase ws) x
      unfold emit
      split_ifs with hdirect
      · simp [World.push, hdirect]
      · dsimp only
        split_ifs
        · simpa [World.push, hdirect] using hinsert
        · simpa [hdirect] using hinsert
    change x ∈ (emitAll flags L (emit flags (phrase ws) w)).anagrams ↔ _
    rw [ih, hone, or_assoc]
    apply or_congr_right
    simp only [List.mem_cons, or_and_right, exists_or, exists_eq_left]
    tauto

/-- The search over fewer words ends when the search over all does, and finds what that one finds
with these words only. -/
theorem threadSearch_filter {slots fuel : Nat} {flags : AnagramFlags} {word : Text}
    {keys : List Text} (p : Text → Bool) {L : List (List Text)}
    (h : threadSearch slots fuel 1 flags word keys 0 = .ok L) :
    ∃ L', threadSearch slots fuel 1 flags word (keys.filter p) 0 = .ok L' ∧
      (∀ ws, ws ∈ L' ↔ ws ∈ L ∧ ∀ w ∈ ws, p w = true) ∧
      ∀ ws ∈ L, ws ≠ [] ∧ ∀ w ∈ ws, w ∈ keys := by
  unfold threadSearch at h ⊢
  obtain ⟨master_count, hmaster, h⟩ := bind_eq_ok.mp h
  rw [hmaster, bind_ok]
  simp only [Int.toNat_zero, List.drop_zero] at h ⊢
  obtain ⟨L', h'⟩ := sweep_sublist le_rfl (List.filter_sublist (p := p)) h
  refine ⟨L', h', mem_sweep_filter h h', fun ws hws => ?_⟩
  obtain ⟨k, ys, rfl, hdrawn, -⟩ := (mem_sweep_all h ws).mp hws
  exact ⟨List.cons_ne_nil _ _, hdrawn.mem⟩

/-! ## The two runs -/

theorem printSubset_anagrams (subset : StringMap) (w : World) :
    (printSubset subset w).anagrams = w.anagrams := by
  have hloop : ∀ (keys : List Text) (n : Nat) (out : Text) (w : World),
      (printLoop keys n out w).2.anagrams = w.anagrams := by
    intro keys
    induction keys with
    | nil => exact fun _ _ _ => rfl
    | cons key keys ih =>
      intro n out w
      unfold printLoop
      dsimp only
      split_ifs
      · exact ih _ _ _
      · exact ih _ _ _
  exact hloop subset.keys 8 [] w

/-- An output is an anagram of one word, or a phrase. It is kept when no word of it is excluded. -/
theorem kept_iff_no_word_excluded {anagrams : StringMap} {direct : Prop} {L : List (List Text)}
    {excludeset : StringMap} {x : Text} (hword : x ∈ anagrams → x.splitOn 0x20 = [x])
    (hphrase : ∀ ws ∈ L, (phrase ws).splitOn 0x20 = ws) :
    ((x ∈ anagrams ∧ x ∉ excludeset) ∨
        (direct ∧ ∃ ws, (ws ∈ L ∧ ∀ w ∈ ws, w ∉ excludeset) ∧ x = phrase ws)) ↔
      (x ∈ anagrams ∨ (direct ∧ ∃ ws ∈ L, x = phrase ws)) ∧
        ∀ v ∈ x.splitOn 0x20, v ∉ excludeset := by
  constructor
  · rintro (⟨hx, hnot⟩ | ⟨hdirect, ws, ⟨hws, hnot⟩, rfl⟩)
    · rw [hword hx]
      exact ⟨Or.inl hx, by simpa using hnot⟩
    · rw [hphrase ws hws]
      exact ⟨Or.inr ⟨hdirect, ws, hws, rfl⟩, hnot⟩
  · rintro ⟨hx | ⟨hdirect, ws, hws, rfl⟩, hnot⟩
    · rw [hword hx] at hnot
      exact Or.inl ⟨hx, hnot x List.mem_cons_self⟩
    · rw [hphrase ws hws] at hnot
      exact Or.inr ⟨hdirect, ws, ⟨hws, hnot⟩, rfl⟩

section
variable {T : Trie} {t : search_trie.Tst UInt8} {words : List Text} (hbuilt : Built T t words)
  (hascii : ∀ x, Stored words x → Ascii x) {fuel : Nat}
  (hfuel : (words.map List.length).sum < fuel)
include hbuilt hascii hfuel

/-- The gather block of thread 0. -/
theorem gatherBlock_beside (columns : Text → Nat → Nat) (flags : AnagramFlags)
    (excludeset : StringMap) (prior : OccupancyHash) (word : Text) {subset_free : StringMap}
    {free : World}
    (hrun : gatherBlock T columns 0 fuel flags ∅ prior word (fun _ => false) ∅ .start =
      .ok (subset_free, free)) :
    ∃ subset w, gatherBlock T columns 0 fuel flags excludeset prior word (fun _ => false) ∅ .start =
        .ok (subset, w) ∧
      (∀ x, x ∈ w.anagrams ↔ x ∈ free.anagrams ∧ x ∉ excludeset) ∧
      (∀ x, x ∈ subset ↔ x ∈ subset_free ∧ x ∉ excludeset) ∧
      (∀ x ∈ free.anagrams, Stored words x) ∧ ∀ x ∈ subset_free, Stored words x := by
  unfold gatherBlock at hrun ⊢
  obtain ⟨master_count, hmaster, hrun⟩ := bind_eq_ok.mp hrun
  obtain ⟨u, hgather, hrun⟩ := bind_eq_ok.mp hrun
  have hstart : Beside words excludeset ⟨fun _ => false, OccupancyHash.new, ∅, .start⟩
      ⟨fun _ => false, OccupancyHash.new, ∅, .start⟩ := by
    refine ⟨rfl, OccupancyHash.tidy_new, OccupancyHash.tidy_new, ?_, ?_, ?_, ?_⟩
    · simp [World.start]
    · simp
    · simp [World.start]
    · simp
  obtain ⟨s, hgather', hs⟩ := gather_beside hbuilt hascii columns hfuel hstart word hgather
  have hprint : ∀ v : GatherState, (if flags.print_subset then printSubset v.subset v.world
      else v.world).anagrams = v.world.anagrams := by
    intro v
    split_ifs
    · exact printSubset_anagrams _ _
    · rfl
  cases hrun
  rw [hmaster, bind_ok, hgather', bind_ok]
  refine ⟨_, _, rfl, ?_, hs.subset, ?_, hs.stored_subset⟩
  · rw [hprint, hprint]
    exact hs.anagrams
  · rw [hprint]
    exact hs.stored_anagrams

/-- A run of a single thread with an exclude set, beside one without. -/
theorem getAnagrams_excluding (hspace : ∀ x, Stored words x → (0x20 : UInt8) ∉ x)
    (columns : Text → Nat → Nat) (flags : AnagramFlags) (excludeset : StringMap)
    (prior : OccupancyHash) (word : Text) {subset_free : StringMap} {free : World}
    (hrun : getAnagrams T columns 0 fuel 1 flags ∅ prior word 0 (fun _ => false) ∅ .start =
      .ok (subset_free, free)) :
    ∃ subset w, getAnagrams T columns 0 fuel 1 flags excludeset prior word 0 (fun _ => false) ∅
        .start = .ok (subset, w) ∧
      ∀ x, x ∈ w.anagrams ↔ x ∈ free.anagrams ∧ ∀ v ∈ x.splitOn 0x20, v ∉ excludeset := by
  unfold getAnagrams at hrun ⊢
  rw [if_pos rfl] at hrun ⊢
  obtain ⟨⟨subset₀, free₀⟩, hblock, hrun⟩ := bind_eq_ok.mp hrun
  obtain ⟨subset, w₀, hblock', hanagrams, hsubset, hstored, hkeysStored⟩ :=
    gatherBlock_beside hbuilt hascii hfuel columns flags excludeset prior word hblock
  obtain ⟨free₁, hcombine, hrun⟩ := bind_eq_ok.mp hrun
  cases hrun
  unfold combineSubsetsFast at hcombine
  rw [combineWith_eq] at hcombine
  obtain ⟨L, hsearch, rfl⟩ := map_eq_ok.mp hcombine
  obtain ⟨L', hsearch', hmem, hdrawn⟩ :=
    threadSearch_filter (fun x => !excludeset.contains x) hsearch
  rw [← keys_eq_filter hsubset] at hsearch'
  have hcombine' : combineSubsetsFast fuel 1 flags word subset 0 w₀ =
      .ok (emitAll flags L' w₀) := by
    unfold combineSubsetsFast
    rw [combineWith_eq, hsearch']
    rfl
  refine ⟨subset, emitAll flags L' w₀, ?_, fun x => ?_⟩
  · rw [hblock', bind_ok]
    dsimp only
    rw [hcombine']
    rfl
  · -- an anagram of one word, or a phrase
    have hword : x ∈ free₀.anagrams → x.splitOn 0x20 = [x] := fun hx =>
      List.splitOn_eq_singleton (hspace x (hstored x hx))
    have hphrase : ∀ ws ∈ L, (phrase ws).splitOn 0x20 = ws := by
      intro ws hws
      obtain ⟨hne, hkeys⟩ := hdrawn ws hws
      exact splitOn_phrase hne fun w hw =>
        hspace w (hkeysStored w (Std.TreeMap.mem_keys.mp (hkeys w hw)))
    have hkept : ∀ v : Text, (!excludeset.contains v) = true ↔ v ∉ excludeset := by
      intro v
      rw [Bool.not_eq_true', ← Bool.not_eq_true, ← Std.TreeMap.mem_iff_contains]
    rw [mem_emitAll, mem_emitAll, hanagrams]
    simp only [hmem, hkept]
    exact kept_iff_no_word_excluded hword hphrase

end

/-! ## Runs that end -/

/-- The tables are large enough for the phrase and the words: for their counts, for the sums that
the search compares, and for its depth. -/
structure NoOverflow (stored : Text → Prop) (word : Text) : Prop where
  ascii : Ascii word
  fits : Fits (letters word)
  words_fit : ∀ x, stored x → Fits (letters x)
  sums_fit : ∀ ws k, (∀ w ∈ ws, stored w) → stored k → total letters ws < letters word →
    letters k < letters word → Fits (letters k + total letters ws)
  length_le : ∀ ws, (∀ w ∈ ws, stored w) → total letters ws < letters word → ws.length ≤ 65

/-- Within the bounds of the search, the tables are large enough. -/
theorem InBounds.noOverflow {stored : Text → Prop} {word : Text} (hb : InBounds word)
    (hfits : ∀ x, stored x → Fits (letters x))
    (hwords : ∀ x, stored x → x ≠ [] ∧ (0x20 : UInt8) ∉ x) : NoOverflow stored word := by
  refine ⟨hb.ascii, hb.fits le_rfl, hfits, fun ws k _ _ hlt hk => hb.fits_add hk.le hlt.le,
    fun ws hws hlt => ?_⟩
  have hpart : ∀ w ∈ ws, letters w ≤ total letters ws := fun w hw =>
    List.single_le_sum (fun _ _ => Multiset.zero_le _) _ (List.mem_map_of_mem hw)
  have hpartials : Partials word ws := fun w hw =>
    ⟨(hwords w (hws w hw)).1, (hwords w (hws w hw)).2, (hpart w hw).trans_lt hlt⟩
  have hlen := length_le_card hpartials fun w hw => hw
  have hcard := Multiset.card_lt_card hlt
  have hmax := hb.card_le
  omega

/-- The hash can be cleared, and the subset has stored words with fewer letters than the phrase. -/
structure Going (words : List Text) (word : Text) (s : GatherState) : Prop where
  tidy : s.candidate_count.Tidy
  subset : ∀ x ∈ s.subset, Stored words x ∧ letters x < letters word

section
variable {words : List Text} {word : Text} {flags : AnagramFlags} {excludeset : StringMap}
  {master_count : OccupancyHash}

theorem consider_going (hmaster : master_count.Holds (letters word)) (hword : Fits (letters word))
    {s : GatherState} (h : Going words word s) {x : Text} (hx : Stored words x) (hascii : Ascii x)
    (hfits : Fits (letters x)) :
    ∃ s', consider flags excludeset master_count s x = .ok s' ∧ Going words word s' := by
  by_cases hin : x ∈ excludeset
  · exact ⟨s, consider_excluded hin s, h⟩
  · have hbytes := cString_of_ascii hascii
    obtain ⟨hcomparable, -, htakes⟩ := comparisons_of_holds hmaster hword hascii hfits
    have hends : ∃ s', consider flags excludeset master_count s x = .ok s' := by
      rw [consider_ok_iff hin h.tidy, hbytes]
      exact hcomparable
    obtain ⟨s', hs'⟩ := hends
    obtain ⟨htidy, -, -, hsubset⟩ := consider_mem h.tidy hin hs'
    refine ⟨s', hs', htidy, fun y hy => ?_⟩
    rw [hsubset, hbytes, htakes] at hy
    rcases hy with hy | ⟨rfl, hlt⟩
    · exact h.subset y hy
    · exact ⟨hx, hlt⟩

theorem length_keys_le {subset : StringMap} (hsubset : ∀ x ∈ subset, Stored words x)
    (hne : ∀ x, Stored words x → x ≠ []) :
    subset.keys.length ≤ (words.map List.length).sum := by
  have hsub : subset.keys ⊆ words.map lower := by
    intro x hx
    obtain ⟨w, hw, rfl⟩ := hsubset x (Std.TreeMap.mem_keys.mp hx)
    exact List.mem_map_of_mem hw
  have hcount := (Std.TreeMap.nodup_keys.subperm hsub).length_le
  have hpos : ∀ w ∈ words, 1 ≤ w.length := by
    intro w hw
    have hlower := hne (lower w) ⟨w, hw, rfl⟩
    simpa [lower, Nat.one_le_iff_ne_zero] using hlower
  have hsum := List.card_nsmul_le_sum (words.map List.length) 1 (by simpa using hpos)
  simp only [List.length_map, smul_eq_mul, mul_one] at hcount hsum
  omega

variable {T : Trie} {t : search_trie.Tst UInt8} (hbuilt : Built T t words)
  (hascii : ∀ x, Stored words x → Ascii x) {fuel : Nat}
include hbuilt hascii

theorem gather_going (hfuel : (words.map List.length).sum < fuel) (columns : Text → Nat → Nat)
    (hmaster : master_count.Holds (letters word)) (hb : NoOverflow (Stored words) word)
    {s : GatherState} (h : Going words word s) :
    ∃ s', gather T columns 0 fuel flags excludeset master_count word s = .ok s' ∧
      Going words word s' := by
  refine foldlM_ok (P := fun _ s => Going words word s) (c_str word)
    (fun _ c _ s _ hs => ?_) h
  unfold gatherLetter
  split_ifs
  · exact ⟨s, rfl, hs⟩
  · obtain ⟨m, hm, hstored⟩ := fuzzyFind_stored hbuilt hascii columns hfuel
      (zero_notMem_cString [c])
    rw [hm, bind_ok]
    refine foldlM_ok (P := fun _ s => Going words word s) m.toList
      (fun _ it rest s hsplit hs => ?_) ⟨hs.tidy, hs.subset⟩
    have hit : it ∈ m.toList := by simp [hsplit]
    have hx := hstored it.1 it.2 (Std.TreeMap.mem_toList_iff_getElem?_eq_some.mp hit)
    exact consider_going hmaster hb.fits hs hx (hascii _ hx) (hb.words_fit _ hx)

/-- With no overflow, the run of a single thread ends. -/
theorem getAnagrams_ends (hne : ∀ x, Stored words x → x ≠ [])
    (hspace : ∀ x, Stored words x → (0x20 : UInt8) ∉ x)
    (hfuel : (words.map List.length).sum + 67 ≤ fuel) (columns : Text → Nat → Nat)
    (hb : NoOverflow (Stored words) word) {prior : OccupancyHash} (hprior : prior.Cleared) :
    ∃ subset w, getAnagrams T columns 0 fuel 1 flags excludeset prior word 0 (fun _ => false) ∅
      .start = .ok (subset, w) := by
  obtain ⟨master_count, hmaster, hholds⟩ := OccupancyHash.getCharCountMap_holds word hb.ascii
    hprior.holds (by simpa using hb.fits)
  rw [zero_add] at hholds
  have hstart : Going words word ⟨fun _ => false, OccupancyHash.new, ∅, .start⟩ :=
    ⟨OccupancyHash.tidy_new, by simp⟩
  obtain ⟨s, hgather, hs⟩ := @gather_going words word flags excludeset _ T t hbuilt hascii fuel
    (by omega) columns hholds hb _ hstart
  have hkeys : ∀ k ∈ s.subset.keys, Stored words k ∧ letters k < letters word :=
    fun k hk => hs.subset k (Std.TreeMap.mem_keys.mp hk)
  have hpartials : Partials word s.subset.keys := fun k hk =>
    ⟨hne k (hkeys k hk).1, hspace k (hkeys k hk).1, (hkeys k hk).2⟩
  have hroomy : Roomy word s.subset.keys := by
    refine ⟨⟨hb.ascii, hb.fits, fun ws k hws hk hlt => ?_⟩, fun ws hws hlt => ?_⟩
    · exact hb.sums_fit ws k (fun w hw => (hkeys w (hws w hw)).1) (hkeys k hk).1 hlt (hkeys k hk).2
    · exact hb.length_le ws (fun w hw => (hkeys w (hws w hw)).1) hlt
  have hlength := length_keys_le (fun x hx => (hs.subset x hx).1) hne
  obtain ⟨L, hL⟩ := hroomy.threadSearch_ends flags hpartials (le_refl 64) le_rfl
    (by omega : s.subset.keys.length + 67 ≤ fuel) 0
  unfold getAnagrams gatherBlock OccupancyHash.ofWord
  rw [if_pos rfl, hmaster, bind_ok, hgather, bind_ok, bind_ok]
  dsimp only
  unfold combineSubsetsFast
  rw [combineWith_eq, hL]
  exact ⟨_, _, rfl⟩

end

/-- For a dictionary of plain words without spaces and any arguments: the run of a single thread
with their exclude set finds what the run without excluded words finds, other than the phrases and
words with an excluded word in them. It ends whenever that run ends, and that one ends when no
table overflows. -/
theorem excluding_words_filters_the_anagrams (content : Text)
    (hlines : ∀ l ∈ lines 10 content, Plain l ∧ (0x20 : UInt8) ∉ l) (args : List Text)
    (o : Arguments) (hargs : parseArguments args = some o) (flags : AnagramFlags) (word : Text)
    (prior : OccupancyHash) (columns : Text → Nat → Nat) (fuel : Nat)
    (hfuel : content.length < fuel) :
    ∃ T, readDictionaryFile fuel content .empty = .ok T ∧
      (∀ subset_free free, getAnagrams T columns 0 fuel 1 flags ∅ prior word 0 (fun _ => false) ∅
          .start = .ok (subset_free, free) →
        ∃ subset w, getAnagrams T columns 0 fuel 1 flags o.excludeset prior word 0
            (fun _ => false) ∅ .start = .ok (subset, w) ∧
          ∀ x, x ∈ w.anagrams ↔
            x ∈ free.anagrams ∧ ∀ v ∈ x.splitOn 0x20, ¬ Excluded args v) ∧
      (prior.Cleared → NoOverflow (Stored (lines 10 content)) word →
        content.length + 67 ≤ fuel → ∃ subset_free free, getAnagrams T columns 0 fuel 1 flags ∅
          prior word 0 (fun _ => false) ∅ .start = .ok (subset_free, free)) := by
  have hlower : ∀ x, Stored (lines 10 content) x →
      Ascii x ∧ x ≠ [] ∧ (0x20 : UInt8) ∉ x := by
    rintro x ⟨l, hl, rfl⟩
    obtain ⟨⟨hne, hascii⟩, hspace⟩ := hlines l hl
    refine ⟨ascii_lower hascii, by simpa [lower] using hne, fun hmem => ?_⟩
    obtain ⟨c, hc, heq⟩ := List.mem_map.mp hmem
    exact tolower_ne_space (fun h => hspace (h ▸ hc)) heq
  obtain ⟨T, hread, t, words, hbuilt, hwords, hsize⟩ := readDictionaryFile_holding holding_empty
    (fun l hl => (hlines l hl).1) (by omega : 0 + content.length < fuel)
  have hsame : ∀ x, Stored words x ↔ Stored (lines 10 content) x := by simpa using hwords
  have hstored := fun x hx => hlower x ((hsame x).mp hx)
  refine ⟨T, hread, fun subset_free free hrun => ?_, fun hprior hb hmore => ?_⟩
  · obtain ⟨subset, w, hrun', hanagrams⟩ := getAnagrams_excluding hbuilt
      (fun x hx => (hstored x hx).1) (by omega) (fun x hx => (hstored x hx).2.2) columns flags
      o.excludeset prior word hrun
    simp only [mem_excludeset hargs] at hanagrams
    exact ⟨subset, w, hrun', hanagrams⟩
  · have hb' : NoOverflow (Stored words) word := by
      refine ⟨hb.ascii, hb.fits, fun x hx => hb.words_fit x ((hsame x).mp hx), ?_, ?_⟩
      · exact fun ws k hws hk => hb.sums_fit ws k (fun w hw => (hsame w).mp (hws w hw))
          ((hsame k).mp hk)
      · exact fun ws hws => hb.length_le ws fun w hw => (hsame w).mp (hws w hw)
    exact getAnagrams_ends hbuilt (fun x hx => (hstored x hx).1) (fun x hx => (hstored x hx).2.1)
      (fun x hx => (hstored x hx).2.2) (by omega) columns hb' hprior

/-- The words a, b and ab, and the argument -eB,c. -/
theorem excluding_b_filters_the_anagrams_of_ab :
    ∃ o T subset_free free subset w, parseArguments [bytes "-eB,c", bytes "ab"] = some o ∧
      readDictionaryFile 80 (bytes "a\nb\nab\n") .empty = .ok T ∧
      getAnagrams T (fun _ _ => 0) 0 80 1 ⟨true, false, false⟩ ∅ .new (bytes "ab") 0
        (fun _ => false) ∅ .start = .ok (subset_free, free) ∧
      getAnagrams T (fun _ _ => 0) 0 80 1 ⟨true, false, false⟩ o.excludeset .new (bytes "ab") 0
        (fun _ => false) ∅ .start = .ok (subset, w) ∧
      ∀ x, x ∈ w.anagrams ↔ x ∈ free.anagrams ∧
        ∀ v ∈ x.splitOn 0x20, ¬ Excluded [bytes "-eB,c", bytes "ab"] v := by
  obtain ⟨o, ho⟩ : ∃ o, parseArguments [bytes "-eB,c", bytes "ab"] = some o := ⟨_, rfl⟩
  obtain ⟨T, hread, hrun, hends⟩ := excluding_words_filters_the_anagrams (bytes "a\nb\nab\n")
    (by decide +kernel) _ o ho ⟨true, false, false⟩ (bytes "ab") .new (fun _ _ => 0) 80
    (by decide)
  have hb : InBounds (bytes "ab") := .of_length_le (by decide +kernel) (by decide)
  have hlines : ∀ l ∈ lines 10 (bytes "a\nb\nab\n"), lower l ≠ [] ∧ (0x20 : UInt8) ∉ lower l ∧
      Ascii (lower l) ∧ (lower l).length ≤ kMaxCharsPerWord := by decide +kernel
  have hroom : NoOverflow (Stored (lines 10 (bytes "a\nb\nab\n"))) (bytes "ab") := by
    apply hb.noOverflow
    · rintro x ⟨l, hl, rfl⟩
      exact fits_of_length_le (hlines l hl).2.2.1 (hlines l hl).2.2.2
    · rintro x ⟨l, hl, rfl⟩
      exact ⟨(hlines l hl).1, (hlines l hl).2.1⟩
  obtain ⟨subset_free, free, hfree⟩ := hends OccupancyHash.cleared_new hroom (by decide)
  obtain ⟨subset, w, hrun', hanagrams⟩ := hrun subset_free free hfree
  exact ⟨o, T, subset_free, free, subset, w, ho, hread, hfree, hrun', hanagrams⟩

end anagram
