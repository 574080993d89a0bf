-- The gather block as a log (main.cc). The letters of the phrase are searched in
-- turn, each for the first time only, and what the searches bring is written in
-- that order: to the map, or with -o to the queue. No word is brought twice, so
-- nothing is written twice, although with -o no map is asked.
import Anagram.GatherLaws

open search_trie outcome

namespace anagram

/-! ## What a search brings -/

theorem values_empty : (∅ : Std.TreeMap Int Text).toList.map Prod.snd = [] := rfl

/-- The texts of a map after an assignment to a key that is not there. -/
theorem perm_values_insert {m : Std.TreeMap Int Text} {k : Int} (hfresh : k ∉ m) (v : Text) :
    ((m.insert k v).toList.map Prod.snd).Perm (v :: m.toList.map Prod.snd) := by
  have hkept : m.toList.filter (fun it => ¬ (k == it.1)) = m.toList := by
    apply List.filter_eq_self.mpr
    intro it hit
    have hne : k ≠ it.1 := by
      rintro rfl
      apply hfresh
      rw [Std.TreeMap.mem_iff_isSome_getElem?,
        Std.TreeMap.mem_toList_iff_getElem?_eq_some.mp hit]
      rfl
    simpa using hne
  have hperm := (Std.TreeMap.toList_insert_perm (t := m) (k := k) (v := v)).map Prod.snd
  rw [hkept] at hperm
  exact hperm

section
variable (columns : Text → Nat → Nat) (stem word : Text)

/-- The traversal brings each word under a key of its own. -/
theorem perm_values_addWord {start : Std.TreeMap Int Text} (hstart : ∀ k ∈ start, k = 0)
    {us vs : List Text} {s : Extrapolation}
    (h : Tallied (scoreOf columns stem word) stem start us s)
    (hkeyed : Keyed (scoreOf columns stem word) (us ++ vs)) :
    ((vs.foldl (addWord columns stem word) s).words.toList.map Prod.snd).Perm
      (s.words.toList.map Prod.snd ++ vs.map (stem ++ ·)) := by
  induction vs generalizing us s with
  | nil => simp
  | cons v vs ih =>
    have hsplit : us ++ v :: vs = us ++ [v] ++ vs := by simp
    rw [hsplit] at hkeyed
    have hnext := addWord_tallied columns stem word h hstart hkeyed.of_prefix
    have haccum : Tallied (scoreOf columns stem word) stem start us { s with accum := v } :=
      ⟨h.lookup, h.keys, h.values⟩
    obtain ⟨htie, hwords, -⟩ := breakTie_tallied haccum (scoreOf columns stem word v)
    have hinsert : (addWord columns stem word s v).words = s.words.insert
        (tieKey (tally (scoreOf columns stem word) us (scoreOf columns stem word v))
          (scoreOf columns stem word v)) (stem ++ v) := by
      have hdef : (addWord columns stem word s v).words =
          (breakTie (scoreOf columns stem word v) { s with accum := v }).2.words.insert
            (tieKey (breakTie (scoreOf columns stem word v) { s with accum := v }).1
              (scoreOf columns stem word v)) (stem ++ v) := rfl
      rw [hdef, htie, hwords]
    apply (ih hnext hkeyed).trans
    rw [hinsert]
    apply ((perm_values_insert (tieKey_fresh h hstart hkeyed.of_prefix) _).append_right _).trans
    rw [List.map_cons, List.cons_append]
    exact List.perm_middle.symm

end

/-- The search for a letter brings each word that begins with it once. -/
theorem fuzzyFind_letter_perm {T : Trie} {t : Tst UInt8} {words : List Text}
    (hbuilt : Built T t words) (hwords : Searchable words) (columns : Text → Nat → Nat) {fuel : Nat}
    (hfuel : (words.map List.length).sum < fuel) {c : UInt8} (hc : Ascii [c]) :
    ∃ m, fuzzyFind T columns 0 fuel [c] T.root ∅ = .ok m ∧
      (m.toList.map Prod.snd).Perm ((if t.find c [] then [[c]] else []) ++
        (t.stem c []).center.words.map ([c] ++ ·)) := by
  have hfind := find_refines hbuilt.rep hc (hbuilt.size.trans_lt hfuel)
  have hends := Tst.ends_stem t c []
  have hkeyed : Keyed (scoreOf columns [c] [c]) (t.stem c []).center.words :=
    keyed_letter hwords columns
      (Tst.nodup_words (Tst.ordered_center (Tst.ordered_stem hbuilt.ordered c [])))
      fun v hv => (mem_words_below hbuilt c v).mp hv
  have hvalues : ∀ start : Std.TreeMap Int Text, (∀ k ∈ start, k = 0) →
      (((t.stem c []).center.words.foldl (addWord columns [c] [c])
          ⟨start, ∅, [], 0⟩).words.toList.map Prod.snd).Perm
        (start.toList.map Prod.snd ++ (t.stem c []).center.words.map ([c] ++ ·)) :=
    fun start hstart => perm_values_addWord columns [c] [c] hstart
      (tallied_start _ [c] start) (by simpa using hkeyed)
  have hall := fun a => extrapolateAll_letter hbuilt c columns hfuel (a := a)
  unfold fuzzyFind stemLoop stemLoop
  simp only [List.length_singleton, List.take_succ_cons, List.take_zero, Nat.zero_add]
  rw [c_str, hbuilt.root, hfind]
  cases hfound : t.find c [] with
  | false =>
    cases hhead : (t.stem c []).head with
    | none =>
      refine ⟨∅, rfl, ?_⟩
      simp [Tst.head_eq_none.mp hhead, Tst.center, Tst.words, values_empty]
    | some a =>
      refine ⟨_, by simp [hall a hhead]; rfl, ?_⟩
      have hbrought := hvalues ∅ (by simp)
      rw [values_empty] at hbrought
      simpa using hbrought
  | true =>
    cases hhead : (t.stem c []).head with
    | none =>
      rw [Tst.head_eq_none.mp hhead, hfound] at hends
      cases hends
    | some a =>
      refine ⟨_, by simp [hall a hhead]; rfl, ?_⟩
      apply (hvalues _ (by simp [Std.TreeMap.mem_insert])).trans
      apply List.Perm.append_right
      exact perm_values_insert (by simp) [c]

/-- The words that the search for a character of the phrase brings, in the order of their keys. -/
def searched (T : Trie) (columns : Text → Nat → Nat) (fuel : Nat) (c : UInt8) : List Text :=
  ((fuzzyFind T columns 0 fuel (cString [c]) T.root ∅).toOption.getD ∅).toList.map Prod.snd

/-- These are the stored words that begin with it, and each comes once. -/
theorem searched_char {T : Trie} {t : Tst UInt8} {words : List Text} (hbuilt : Built T t words)
    (hwords : Gatherable words) (columns : Text → Nat → Nat) {fuel : Nat}
    (hfuel : (words.map List.length).sum < fuel) {c : UInt8} (hc : c < 128) :
    (∃ m, fuzzyFind T columns 0 fuel (cString [c]) T.root ∅ = .ok m ∧
      m.toList.map Prod.snd = searched T columns fuel c) ∧
    (searched T columns fuel c).Nodup ∧
    ∀ x, x ∈ searched T columns fuel c ↔ Stored words x ∧ x.head? = some c := by
  obtain ⟨m, hm, hmem⟩ := fuzzyFind_char columns hbuilt hwords hfuel hc
  have hsearched : searched T columns fuel c = m.toList.map Prod.snd := by
    unfold searched
    rw [hm]
    rfl
  refine ⟨⟨m, hm, hsearched.symm⟩, ?_, fun x => by rw [hsearched, mem_found, hmem]⟩
  rw [hsearched]
  by_cases hzero : c = 0
  · subst hzero
    cases hm
    exact List.nodup_nil
  · have hascii : Ascii [c] := by
      intro d hd
      rw [List.mem_singleton.mp hd]
      exact ⟨UInt8.pos_iff_ne_zero.mpr hzero, hc⟩
    rw [cString_of_ascii hascii] at hm
    obtain ⟨m', hm', hperm⟩ :=
      fuzzyFind_letter_perm hbuilt hwords.searchable columns hfuel hascii
    obtain rfl := Except.ok.inj (hm.symm.trans hm')
    have hbelow := Tst.nodup_words (Tst.ordered_center (Tst.ordered_stem hbuilt.ordered c []))
    have hmapped : ((t.stem c []).center.words.map ([c] ++ ·)).Nodup :=
      hbelow.map fun _ _ h => List.append_cancel_left h
    rw [hperm.nodup_iff]
    split_ifs
    · rw [List.singleton_append, List.nodup_cons]
      refine ⟨fun hin => ?_, hmapped⟩
      obtain ⟨v, hv, heq⟩ := List.mem_map.mp hin
      obtain rfl : v = [] := by simpa using heq
      exact Tst.nil_notMem_words _ hv
    · exact hmapped

/-! ## The log -/

/-- The characters of a text, each at its first place. -/
def distinctChars (text : List UInt8) : List UInt8 :=
  text.foldl (fun done c => if c ∈ done then done else done ++ [c]) []

/-- The map with the given keys, inserted one after another. -/
def mapOf (keys : List Text) : StringMap := keys.foldl (fun m key => m.insert key 1) ∅

/-- The words that are not excluded and have the letters of the phrase. -/
def anagramsOf (phrase : Text) (excludeset : StringMap) (seen : List Text) : List Text :=
  seen.filter fun x => decide (x ∉ excludeset ∧ letters x = letters phrase)

/-- The words that are not excluded and have fewer letters than the phrase. -/
def partialsOf (phrase : Text) (excludeset : StringMap) (seen : List Text) : List Text :=
  seen.filter fun x => decide (x ∉ excludeset ∧ letters x < letters phrase)

theorem mapOf_snoc (keys : List Text) (key : Text) :
    mapOf (keys ++ [key]) = (mapOf keys).insert key 1 := by
  simp [mapOf, List.foldl_append]

theorem mem_mapOf (keys : List Text) (x : Text) : x ∈ mapOf keys ↔ x ∈ keys := by
  induction keys using List.reverseRecOn with
  | nil => simp [mapOf]
  | append_singleton keys key ih =>
    rw [mapOf_snoc, mem_insert_one, ih]
    simp

theorem mem_anagramsOf {phrase : Text} {excludeset : StringMap} {seen : List Text} {x : Text} :
    x ∈ anagramsOf phrase excludeset seen ↔
      x ∈ seen ∧ x ∉ excludeset ∧ letters x = letters phrase := by
  simp [anagramsOf]

theorem mem_partialsOf {phrase : Text} {excludeset : StringMap} {seen : List Text} {x : Text} :
    x ∈ partialsOf phrase excludeset seen ↔
      x ∈ seen ∧ x ∉ excludeset ∧ letters x < letters phrase := by
  simp [partialsOf]

section
variable {phrase : Text} {excludeset : StringMap} (seen : List Text) {x : Text}

theorem anagramsOf_add (h : x ∉ excludeset ∧ letters x = letters phrase) :
    anagramsOf phrase excludeset (seen ++ [x]) = anagramsOf phrase excludeset seen ++ [x] := by
  simp [anagramsOf, List.filter_append, h]

theorem anagramsOf_skip (h : ¬ (x ∉ excludeset ∧ letters x = letters phrase)) :
    anagramsOf phrase excludeset (seen ++ [x]) = anagramsOf phrase excludeset seen := by
  simp only [anagramsOf, List.filter_append, List.filter_singleton, h, decide_false,
    cond_false, List.append_nil]

theorem partialsOf_add (h : x ∉ excludeset ∧ letters x < letters phrase) :
    partialsOf phrase excludeset (seen ++ [x]) = partialsOf phrase excludeset seen ++ [x] := by
  simp [partialsOf, List.filter_append, h]

theorem partialsOf_skip (h : ¬ (x ∉ excludeset ∧ letters x < letters phrase)) :
    partialsOf phrase excludeset (seen ++ [x]) = partialsOf phrase excludeset seen := by
  simp only [partialsOf, List.filter_append, List.filter_singleton, h, decide_false,
    cond_false, List.append_nil]

end

/-- After the words that were searched, the state of the gather block in full: what it has
written, the map, and the subset. -/
structure Logged (flags : AnagramFlags) (excludeset : StringMap) (phrase : Text)
    (seen : List Text) (s : GatherState) : Prop where
  tidy : s.candidate_count.Tidy
  log_eq : s.world.effects.filter (isEmission flags) =
    (anagramsOf phrase excludeset seen).map (emission flags)
  no_messages : flags.output_directly = true → ∀ e ∈ s.world.effects, isEmission flags e = true
  anagrams_eq : s.world.anagrams =
    if flags.output_directly then ∅ else mapOf (anagramsOf phrase excludeset seen)
  subset_eq : s.subset = mapOf (partialsOf phrase excludeset seen)
  throttle_eq : s.world.output_queue_throttle = kOutputQueueThrottleFrequency

theorem logged_start (flags : AnagramFlags) (excludeset : StringMap) (phrase : Text)
    (chars_completed : UInt8 → Bool) : Logged flags excludeset phrase []
      ⟨chars_completed, OccupancyHash.new, ∅, .start⟩ where
  tidy := OccupancyHash.tidy_new
  log_eq := rfl
  no_messages _ e he := by cases he
  anagrams_eq := by split_ifs <;> rfl
  subset_eq := rfl
  throttle_eq := rfl

section
variable {flags : AnagramFlags} {excludeset : StringMap} {master_count : OccupancyHash}
  {phrase : Text}

/-- A new anagram is written. With -o it goes to the queue and nowhere else. -/
theorem addAnagram_new (flags : AnagramFlags) {x : Text} {w : World} (hnew : x ∉ w.anagrams) :
    (addAnagram flags x w).effects.filter (isEmission flags) =
        w.effects.filter (isEmission flags) ++ [emission flags x] ∧
    (flags.output_directly = true →
      (addAnagram flags x w).effects = w.effects ++ [emission flags x]) ∧
    (addAnagram flags x w).anagrams =
      (if flags.output_directly then w.anagrams else w.anagrams.insert x 1) ∧
    (addAnagram flags x w).output_queue_throttle = w.output_queue_throttle := by
  have hcontains : w.anagrams.contains x = false := by
    rw [← Bool.not_eq_true, ← Std.TreeMap.mem_iff_contains]
    exact hnew
  unfold addAnagram emission
  cases hdirect : flags.output_directly with
  | true => simp [hcontains, World.push, isEmission, hdirect]
  | false => simp [hcontains, World.push, World.write, isEmission, hdirect]

/-- A word that is neither an anagram nor a part leaves all as it was. -/
theorem Logged.skip (seen : List Text) {s : GatherState} (h : Logged flags excludeset phrase seen s)
    {x : Text} (hanagram : ¬ (x ∉ excludeset ∧ letters x = letters phrase))
    (hpart : ¬ (x ∉ excludeset ∧ letters x < letters phrase)) :
    Logged flags excludeset phrase (seen ++ [x]) s := by
  refine ⟨h.tidy, ?_, h.no_messages, ?_, ?_, h.throttle_eq⟩
  · rw [anagramsOf_skip seen hanagram]
    exact h.log_eq
  · rw [anagramsOf_skip seen hanagram]
    exact h.anagrams_eq
  · rw [partialsOf_skip seen hpart]
    exact h.subset_eq

/-- An anagram is written, for the map does not have it yet. -/
theorem Logged.add (seen : List Text) {s s' : GatherState}
    (h : Logged flags excludeset phrase seen s) {x : Text} (hnew : x ∉ seen)
    (hanagram : x ∉ excludeset ∧ letters x = letters phrase) (htidy : s'.candidate_count.Tidy)
    (hsubset : s'.subset = s.subset) (hworld : s'.world = addAnagram flags x s.world) :
    Logged flags excludeset phrase (seen ++ [x]) s' := by
  have hfresh : x ∉ s.world.anagrams := by
    rw [h.anagrams_eq]
    split_ifs
    · simp
    · rw [mem_mapOf, mem_anagramsOf]
      exact fun hx => hnew hx.1
  obtain ⟨hlog, heffects, hanagrams, hthrottle⟩ := addAnagram_new flags hfresh
  refine ⟨htidy, ?_, fun hdirect e he => ?_, ?_, ?_, ?_⟩
  · rw [hworld, hlog, h.log_eq, anagramsOf_add seen hanagram, List.map_append]
    rfl
  · rw [hworld, heffects hdirect, List.mem_append, List.mem_singleton] at he
    rcases he with he | rfl
    · exact h.no_messages hdirect e he
    · simp [emission, isEmission, hdirect]
  · rw [hworld, hanagrams, h.anagrams_eq, anagramsOf_add seen hanagram, mapOf_snoc]
    split_ifs <;> rfl
  · rw [hsubset, h.subset_eq, partialsOf_skip seen fun hx => hx.2.ne hanagram.2]
  · rw [hworld, hthrottle, h.throttle_eq]

/-- A new word is logged. -/
theorem consider_logged (hmaster : master_count.Holds (letters phrase))
    (hphrase : Fits (letters phrase)) {seen : List Text} {s : GatherState}
    (h : Logged flags excludeset phrase seen s) {x : Text} (hnew : x ∉ seen) (hascii : Ascii x)
    (hfits : Fits (letters x)) :
    ∃ s', consider flags excludeset master_count s x = .ok s' ∧
      s'.chars_completed = s.chars_completed ∧
      Logged flags excludeset phrase (seen ++ [x]) s' := by
  by_cases hin : x ∈ excludeset
  · refine ⟨s, consider_excluded hin s, rfl, h.skip seen ?_ ?_⟩
    · exact fun hx => hx.1 hin
    · exact fun hx => hx.1 hin
  · have hbytes := cString_of_ascii hascii
    obtain ⟨hcomparable, hmatches, htakes⟩ := comparisons_of_holds hmaster hphrase hascii hfits
    have hends : ∃ s', consider flags excludeset master_count s x = .ok s' := by
      rw [consider_ok_iff hin h.tidy, hbytes]
      exact hcomparable
    obtain ⟨s', hs'⟩ := hends
    obtain ⟨htidy, hchars, hcase⟩ := consider_cases h.tidy hin hs'
    rw [hbytes, hmatches, htakes] at hcase
    refine ⟨s', hs', hchars, ?_⟩
    rcases hcase with ⟨heq, hnot, hsubset, hworld⟩ | ⟨hne, hlt, hsubset, hworld⟩ |
      ⟨hne, hnot, hsubset, hworld⟩
    · exact h.add seen hnew ⟨hin, heq⟩ htidy hsubset hworld
    · refine ⟨htidy, ?_, ?_, ?_, ?_, ?_⟩
      · rw [hworld, h.log_eq, anagramsOf_skip seen fun hx => hne hx.2]
      · rw [hworld]
        exact h.no_messages
      · rw [hworld, h.anagrams_eq, anagramsOf_skip seen fun hx => hne hx.2]
      · rw [hsubset, h.subset_eq, partialsOf_add seen ⟨hin, hlt⟩, mapOf_snoc]
      · rw [hworld, h.throttle_eq]
    · have hsame := h.skip seen (fun hx => hne hx.2) (fun hx => hnot hx.2)
      exact ⟨htidy, hworld ▸ hsame.log_eq, hworld ▸ hsame.no_messages, hworld ▸ hsame.anagrams_eq,
        hsubset ▸ hsame.subset_eq, hworld ▸ hsame.throttle_eq⟩

/-- The words that one search brings are logged one after another. -/
theorem considerAll_logged (hmaster : master_count.Holds (letters phrase))
    (hphrase : Fits (letters phrase)) {seen brought : List Text} (hnodup : brought.Nodup)
    (hnew : ∀ x ∈ brought, x ∉ seen) (hwords : ∀ x ∈ brought, Ascii x ∧ Fits (letters x))
    {s : GatherState} (h : Logged flags excludeset phrase seen s) :
    ∃ s', brought.foldlM (consider flags excludeset master_count) s = .ok s' ∧
      s'.chars_completed = s.chars_completed ∧
      Logged flags excludeset phrase (seen ++ brought) s' := by
  apply foldlM_ok (P := fun done s₁ => s₁.chars_completed = s.chars_completed ∧
    Logged flags excludeset phrase (seen ++ done) s₁) brought
  · rintro done x rest s₁ hsplit ⟨hchars, hlogged⟩
    have hx : x ∈ brought := by simp [hsplit]
    have hfresh : x ∉ seen ++ done := by
      rw [hsplit, List.nodup_append] at hnodup
      rw [List.mem_append, not_or]
      exact ⟨hnew x hx, fun hdone => hnodup.2.2 x hdone x List.mem_cons_self rfl⟩
    obtain ⟨s₂, hrun, hchars₂, hlogged₂⟩ := consider_logged hmaster hphrase hlogged hfresh
      (hwords x hx).1 (hwords x hx).2
    refine ⟨s₂, hrun, hchars₂.trans hchars, ?_⟩
    rw [← List.append_assoc]
    exact hlogged₂
  · exact ⟨rfl, by simpa using h⟩

end

/-! ## The gather block -/

theorem Gatherable.ne_nil_of_stored {words : List Text} (h : Gatherable words) {x : Text}
    (hx : Stored words x) : x ≠ [] := by
  obtain ⟨w, hw, rfl⟩ := hx
  simpa [lower] using (h.plain w hw).1

section
variable {T : Trie} {t : Tst UInt8} {words : List Text} (hbuilt : Built T t words)
  (hwords : Gatherable words) (columns : Text → Nat → Nat) {fuel : Nat}
  (hfuel : (words.map List.length).sum < fuel) (flags : AnagramFlags) (excludeset : StringMap)
  {master_count : OccupancyHash} {phrase : Text}
  (hmaster : master_count.Holds (letters phrase)) (hphrase : Fits (letters phrase))
include hbuilt hwords hfuel

/-- The searches for different characters bring different words. -/
theorem searched_once {done : List UInt8} (hdone : done.Nodup) (hascii : ∀ c ∈ done, c < 128) :
    (done.flatMap (searched T columns fuel)).Nodup ∧ ∀ x,
      x ∈ done.flatMap (searched T columns fuel) ↔
        Stored words x ∧ ∃ c ∈ done, x.head? = some c := by
  have hmem : ∀ c ∈ done, ∀ x, x ∈ searched T columns fuel c ↔
      Stored words x ∧ x.head? = some c := fun c hc =>
    (searched_char hbuilt hwords columns hfuel (hascii c hc)).2.2
  constructor
  · rw [List.nodup_flatMap]
    refine ⟨fun c hc => (searched_char hbuilt hwords columns hfuel (hascii c hc)).2.1, ?_⟩
    apply hdone.imp_of_mem
    intro c d hc hd hne x hx hx'
    have hhead := ((hmem c hc x).mp hx).2
    rw [((hmem d hd x).mp hx').2, Option.some_inj] at hhead
    exact hne hhead.symm
  · intro x
    rw [List.mem_flatMap]
    constructor
    · rintro ⟨c, hc, hx⟩
      obtain ⟨hstored, hhead⟩ := (hmem c hc x).mp hx
      exact ⟨hstored, c, hc, hhead⟩
    · rintro ⟨hstored, c, hc, hhead⟩
      exact ⟨c, hc, (hmem c hc x).mpr ⟨hstored, hhead⟩⟩

/-- After the characters `done`, these are marked, and what their searches bring is logged. -/
structure LettersDone (T : Trie) (columns : Text → Nat → Nat) (fuel : Nat) (flags : AnagramFlags)
    (excludeset : StringMap) (phrase : Text) (done : List UInt8) (s : GatherState) : Prop where
  nodup : done.Nodup
  ascii : ∀ c ∈ done, c < 128
  completed : ∀ c, s.chars_completed c = true ↔ c ∈ done
  logged : Logged flags excludeset phrase (done.flatMap (searched T columns fuel)) s

include hmaster hphrase

theorem gatherLetter_logged {done : List UInt8} {s : GatherState}
    (h : LettersDone T columns fuel flags excludeset phrase done s) {c : UInt8} (hc : c < 128) :
    ∃ s', gatherLetter T columns 0 fuel flags excludeset master_count s c = .ok s' ∧
      LettersDone T columns fuel flags excludeset phrase
        (if c ∈ done then done else done ++ [c]) s' := by
  unfold gatherLetter
  by_cases hin : c ∈ done
  · rw [if_pos ((h.completed c).mpr hin), if_pos hin]
    exact ⟨s, rfl, h⟩
  · rw [if_neg fun hcompleted => hin ((h.completed c).mp hcompleted), if_neg hin]
    obtain ⟨⟨m, hm, hbrought⟩, hnodup, hmem⟩ := searched_char hbuilt hwords columns hfuel hc
    obtain ⟨-, hseen⟩ := searched_once hbuilt hwords columns hfuel h.nodup h.ascii
    have hnew : ∀ x ∈ searched T columns fuel c,
        x ∉ done.flatMap (searched T columns fuel) := by
      intro x hx hold
      obtain ⟨-, d, hd, hhead⟩ := (hseen x).mp hold
      rw [((hmem x).mp hx).2, Option.some_inj] at hhead
      exact hin (hhead ▸ hd)
    have hfits : ∀ x ∈ searched T columns fuel c, Ascii x ∧ Fits (letters x) := fun x hx =>
      ⟨hwords.ascii_stored ((hmem x).mp hx).1, hwords.fits_stored ((hmem x).mp hx).1⟩
    obtain ⟨s', hrun, hchars, hlogged⟩ := considerAll_logged hmaster hphrase hnodup hnew hfits
      (s := { s with chars_completed := Function.update s.chars_completed c true })
      ⟨h.logged.tidy, h.logged.log_eq, h.logged.no_messages, h.logged.anagrams_eq,
        h.logged.subset_eq, h.logged.throttle_eq⟩
    refine ⟨s', ?_, ?_, ?_, fun d => ?_, ?_⟩
    · rw [hm, bind_ok, ← hrun, ← hbrought, List.foldlM_map]
    · rw [List.nodup_append]
      refine ⟨h.nodup, List.nodup_singleton c, ?_⟩
      rintro d hd e he rfl
      rw [List.mem_singleton.mp he] at hd
      exact hin hd
    · intro d hd
      rcases List.mem_append.mp hd with hd | hd
      · exact h.ascii d hd
      · rw [List.mem_singleton.mp hd]
        exact hc
    · rw [hchars, update_completed h.completed, List.mem_append, List.mem_singleton]
    · rw [List.flatMap_append, List.flatMap_singleton]
      exact hlogged

theorem gather_logged (hascii : Ascii phrase) :
    ∃ s, gather T columns 0 fuel flags excludeset master_count phrase
        ⟨fun _ => false, OccupancyHash.new, ∅, .start⟩ = .ok s ∧
      LettersDone T columns fuel flags excludeset phrase (distinctChars (c_str phrase)) s := by
  unfold gather distinctChars
  refine foldlM_ok (P := fun cs s => LettersDone T columns fuel flags excludeset phrase
    (cs.foldl (fun done c => if c ∈ done then done else done ++ [c]) []) s) (c_str phrase) ?_ ?_
  · intro cs c rest s hsplit hs
    have hmem : c ∈ phrase ++ [0] := by
      rw [← c_str, hsplit]
      simp
    have hc : c < 128 := by
      rcases List.mem_append.mp hmem with hc | hc
      · exact (hascii c hc).2
      · rw [List.mem_singleton.mp hc]
        decide
    rw [List.foldl_append]
    exact gatherLetter_logged hbuilt hwords columns hfuel flags excludeset hmaster hphrase hs hc
  · exact ⟨List.nodup_nil, by simp, by simp, logged_start flags excludeset phrase _⟩

end

theorem mem_distinctChars (text : List UInt8) : ∀ c, c ∈ distinctChars text ↔ c ∈ text := by
  unfold distinctChars
  induction text using List.reverseRecOn with
  | nil => simp
  | append_singleton text d ih =>
    intro c
    rw [List.foldl_append, List.foldl_cons, List.foldl_nil, List.mem_append, List.mem_singleton]
    split_ifs with hin
    · rw [ih] at hin ⊢
      constructor
      · exact Or.inl
      · rintro (h | rfl)
        · exact h
        · exact hin
    · rw [List.mem_append, ih, List.mem_singleton]

theorem nodup_distinctChars (text : List UInt8) : (distinctChars text).Nodup := by
  unfold distinctChars
  induction text using List.reverseRecOn with
  | nil => exact List.nodup_nil
  | append_singleton text d ih =>
    rw [List.foldl_append, List.foldl_cons, List.foldl_nil]
    split_ifs with hin
    · exact ih
    · rw [← List.concat_eq_append]
      exact ih.concat hin

theorem ascii_distinctChars {phrase : Text} (hascii : Ascii phrase) :
    ∀ c ∈ distinctChars (c_str phrase), c < 128 := by
  intro c hc
  rw [mem_distinctChars, c_str, List.mem_append, List.mem_singleton] at hc
  rcases hc with hc | rfl
  · exact (hascii c hc).2
  · decide

/-- The words that the gather block comes to, in its order. -/
def gatheredWords (T : Trie) (columns : Text → Nat → Nat) (fuel : Nat) (phrase : Text) :
    List Text :=
  (distinctChars (c_str phrase)).flatMap (searched T columns fuel)

section
variable {T : Trie} {t : Tst UInt8} {words : List Text} (hbuilt : Built T t words)
  (hwords : Gatherable words) (columns : Text → Nat → Nat) {fuel : Nat}
  (hfuel : (words.map List.length).sum < fuel) {phrase : Text} (hascii : Ascii phrase)
  (excludeset : StringMap)
include hbuilt hwords hfuel hascii

/-- The gather block comes to a stored word once, if it begins with a character of the phrase. -/
theorem gatheredWords_once : (gatheredWords T columns fuel phrase).Nodup ∧ ∀ x,
    x ∈ gatheredWords T columns fuel phrase ↔
      Stored words x ∧ ∃ c ∈ distinctChars (c_str phrase), x.head? = some c :=
  searched_once hbuilt hwords columns hfuel (nodup_distinctChars _) (ascii_distinctChars hascii)

/-- So it comes to every stored word whose letters are in the phrase. -/
theorem mem_gatheredWords_of_le {x : Text} (hle : letters x ≤ letters phrase) :
    x ∈ gatheredWords T columns fuel phrase ↔ Stored words x := by
  rw [(gatheredWords_once hbuilt hwords columns hfuel hascii).2]
  refine ⟨And.left, fun hx => ⟨hx, ?_⟩⟩
  obtain ⟨c, hc, hhead⟩ := hwords.head_mem hx hle
  exact ⟨c, (mem_distinctChars _ c).mpr (List.mem_append_left _ hc), hhead⟩

theorem mem_anagramsOf_gathered (x : Text) :
    x ∈ anagramsOf phrase excludeset (gatheredWords T columns fuel phrase) ↔
      Stored words x ∧ x ∉ excludeset ∧ letters x = letters phrase := by
  rw [mem_anagramsOf]
  refine and_congr_left fun hx => ?_
  exact mem_gatheredWords_of_le hbuilt hwords columns hfuel hascii hx.2.le

theorem mem_partialsOf_gathered (x : Text) :
    x ∈ partialsOf phrase excludeset (gatheredWords T columns fuel phrase) ↔
      Stored words x ∧ x ∉ excludeset ∧ letters x < letters phrase := by
  rw [mem_partialsOf]
  refine and_congr_left fun hx => ?_
  exact mem_gatheredWords_of_le hbuilt hwords columns hfuel hascii hx.2.le

end

end anagram
