-- When two assignments to the result map clash. A key has 12 bits for the ties of
-- a distance, and the next tie after 4095 falls into the keys of the distance
-- above, where it drops a word from the map.
import Anagram.FuzzyFindLaws

open search_trie outcome

namespace anagram

/-! ## Words that are still in the map -/

/-- No key was assigned twice, and the map has all that was assigned. -/
structure NoneLost (m : Std.TreeMap Int Text) (log : List Write) : Prop where
  keys_nodup : (log.map Prod.fst).Nodup
  kept : ∀ w ∈ log, m[w.1]? = some w.2

theorem getElem?_replay_of_ne {log : List Write} {k : Int} (h : ∀ w ∈ log, w.1 ≠ k)
    (words : Std.TreeMap Int Text) : (replay log words)[k]? = words[k]? := by
  induction log generalizing words with
  | nil => rfl
  | cons w log ih =>
    have hw : ¬ compare w.1 k = .eq := by
      rw [Std.LawfulEqCmp.compare_eq_iff_eq]
      exact h w (by simp)
    have hrest := ih (fun w' hw' => h w' (List.mem_cons_of_mem _ hw')) (words.insert w.1 w.2)
    rw [Std.TreeMap.getElem?_insert, if_neg hw] at hrest
    exact hrest

/-- With a key for each, the map keeps all assignments. -/
theorem noneLost_replay {log : List Write} (h : (log.map Prod.fst).Nodup)
    (words : Std.TreeMap Int Text) : NoneLost (replay log words) log := by
  refine ⟨h, ?_⟩
  induction log generalizing words with
  | nil => exact fun w hw => absurd hw List.not_mem_nil
  | cons v log ih =>
    obtain ⟨hv, hlog⟩ := List.nodup_cons.mp h
    intro w hw
    rcases List.mem_cons.mp hw with rfl | hw
    · have hapart : ∀ u ∈ log, u.1 ≠ w.1 := by
        intro u hu heq
        exact hv (heq ▸ List.mem_map_of_mem hu)
      have hlast := getElem?_replay_of_ne hapart (words.insert w.1 w.2)
      rw [Std.TreeMap.getElem?_insert, if_pos Std.ReflCmp.compare_self] at hlast
      exact hlast
    · exact ih hlog _ w hw

/-- When the texts differ, the map can only have all of them under a key for each. -/
theorem nodup_keys_of_kept {m : Std.TreeMap Int Text} {log : List Write}
    (htexts : (log.map Prod.snd).Nodup) (hkept : ∀ w ∈ log, m[w.1]? = some w.2) :
    (log.map Prod.fst).Nodup := by
  apply (List.nodup_map_iff_inj_on (List.Nodup.of_map _ htexts)).mpr
  rintro ⟨k, x⟩ hx ⟨k', y⟩ hy hkey
  dsimp only at hkey
  subst hkey
  have hvalue := (hkept (k, x) hx).symm.trans (hkept (k, y) hy)
  dsimp only at hvalue
  rw [Option.some.inj hvalue]

/-! ## Distances -/

/-- How many words at each distance from the query are committed below a stem. -/
def sharingDistance (t : Tst UInt8) (columns : Text → Nat → Nat) (max_diff_ : Int)
    (query p : Text) (d : Int) : Nat :=
  tally (scoreOf columns p query) (below t columns max_diff_ query p) d

/-- Modulo 2 ^ 32, the ties of each distance fit in front of the keys of every other distance that
a word has, and in front of the key of the stem. -/
structure KeysFit (sharing : Int → Nat) (stem_stored : Prop) : Prop where
  sharing_le : ∀ d, sharing d ≤ 2 ^ 32
  before_next : ∀ d e, d ≠ e → 0 < sharing e → (sharing d : Int) ≤ (4096 * (e - d)) % 2 ^ 32
  before_stem : stem_stored → ∀ d, (sharing d : Int) ≤ -(4096 * d) % 2 ^ 32

theorem tieKey_eq_iff (tie score tie' score' : Int) : tieKey tie score = tieKey tie' score' ↔
    (tie + score * 4096) % 2 ^ 32 = (tie' + score' * 4096) % 2 ^ 32 := by
  unfold tieKey
  rw [Int.bmod_def, Int.bmod_def]
  omega

/-- The ties of a distance have keys in a row, so two distances have a key in common when a row
runs into the start of the other. -/
theorem distinct_keys_iff (sharing : Int → Nat) :
    (∀ d e (i j : Nat), i < sharing d → j < sharing e → tieKey i d = tieKey j e →
        d = e ∧ i = j) ↔
      (∀ d, sharing d ≤ 2 ^ 32) ∧
        ∀ d e, d ≠ e → 0 < sharing e → (sharing d : Int) ≤ (4096 * (e - d)) % 2 ^ 32 := by
  simp only [tieKey_eq_iff]
  constructor
  · intro h
    constructor
    · intro d
      by_contra hlong
      have hwrap := h d d 0 (2 ^ 32) (by omega) (by omega) (by omega)
      omega
    · intro d e hne hpos
      by_contra hlong
      have hnonneg : 0 ≤ (4096 * (e - d)) % 2 ^ 32 := Int.emod_nonneg _ (by omega)
      have hclash := h d e ((4096 * (e - d)) % 2 ^ 32).toNat 0 (by omega) hpos (by omega)
      exact hne hclash.1
  · rintro ⟨hle, hroom⟩ d e i j hi hj hkey
    by_cases hde : d = e
    · subst hde
      have hd := hle d
      omega
    · have hd := hroom d e hde (by omega)
      have he := hroom e d (Ne.symm hde) (by omega)
      omega

theorem no_key_zero_iff (sharing : Int → Nat) : (∀ d (i : Nat), i < sharing d → tieKey i d ≠ 0) ↔
    ∀ d, (sharing d : Int) ≤ -(4096 * d) % 2 ^ 32 := by
  have hzero : tieKey 0 0 = 0 := by decide
  conv_lhs => rw [← hzero]
  simp only [ne_eq, tieKey_eq_iff]
  constructor
  · intro h d
    by_contra hlong
    have hnonneg : 0 ≤ -(4096 * d) % 2 ^ 32 := Int.emod_nonneg _ (by omega)
    exact h d (-(4096 * d) % 2 ^ 32).toNat (by omega) (by omega)
  · intro h d i hi hkey
    have hd := h d
    omega

/-- The stored words that go on after a text. -/
def extensions (words : List Text) (p : Text) : List Text :=
  (words.map lower).dedup.filter fun x => p <+: x ∧ x ≠ p

theorem mem_extensions {words : List Text} {p x : Text} :
    x ∈ extensions words p ↔ Stored words x ∧ p <+: x ∧ x ≠ p := by
  have hmem : x ∈ words.map lower ↔ Stored words x := by
    simp only [List.mem_map, Stored, eq_comm]
  unfold extensions
  rw [List.mem_filter, List.mem_dedup, hmem, decide_eq_true_eq]

section
variable {T : Trie} {t : Tst UInt8} {words : List Text} (hbuilt : Built T t words)
include hbuilt

/-- With no threshold, these are all stored words that go on after the stem. -/
theorem sharingDistance_zero (columns : Text → Nat → Nat) (query : Text) {p : Text} (hne : p ≠ [])
    (d : Int) : sharingDistance t columns 0 query p d =
      (extensions words p).countP fun x => calcLevenshtein (columns x) query (cString x) = d := by
  have hperm : ((stemAt t p).center.words.map (p ++ ·)).Perm (extensions words p) := by
    apply (List.perm_ext_iff_of_nodup _ _).mpr
    · intro x
      simp only [mem_extensions, List.mem_map, mem_words_stemAt hbuilt hne]
      constructor
      · rintro ⟨v, ⟨hv, hstored⟩, rfl⟩
        exact ⟨hstored, List.prefix_append p v, fun h => hv (List.append_right_eq_self.mp h)⟩
      · rintro ⟨hstored, ⟨v, rfl⟩, hx⟩
        exact ⟨v, ⟨fun h => hx (h ▸ List.append_nil p), hstored⟩, rfl⟩
    · exact (nodup_words_stemAt hbuilt p).map (List.append_right_injective p)
    · exact (List.nodup_dedup _).filter _
  rw [← hperm.countP_eq, List.countP_map]
  unfold sharingDistance
  rw [below_zero]
  rfl

/-- The keys are distinct exactly when the ties of the words below the stem fit. -/
theorem nodup_keys_committed {columns : Text → Nat → Nat} {max_diff_ : Int} {query p : Text}
    (hne : p ≠ []) :
    (((if (stemAt t p).ends then [((0 : Int), p)] else []) ++
      assignments (scoreOf columns p query) p []
        (below t columns max_diff_ query p)).map Prod.fst).Nodup ↔
      KeysFit (sharingDistance t columns max_diff_ query p) (Stored words p) := by
  have hends := ends_stemAt hbuilt hne
  have hkeys := (nodup_keys_iff (scoreOf columns p query) p
    (below t columns max_diff_ query p)).trans (distinct_keys_iff _)
  have hzero := no_key_zero_iff (sharingDistance t columns max_diff_ query p)
  have hmem : ∀ k : Int, k ∈ (assignments (scoreOf columns p query) p []
      (below t columns max_diff_ query p)).map Prod.fst ↔
        ∃ d, ∃ i : Nat, i < sharingDistance t columns max_diff_ query p d ∧ tieKey i d = k := by
    intro k
    rw [assignments_keys]
    simp only [List.mem_map, Prod.exists, mem_ties]
    unfold sharingDistance
    simp only [tally, List.countP_nil, List.nil_append, Nat.zero_le, true_and]
    exact exists_comm
  rw [List.map_append]
  constructor
  · intro hnodup
    obtain ⟨hle, hnext⟩ := hkeys.mp (List.Nodup.of_append_right hnodup)
    refine ⟨hle, hnext, fun hstored => hzero.mp fun d i hi hkey => ?_⟩
    rw [if_pos (hends.mpr hstored)] at hnodup
    exact (List.nodup_cons.mp hnodup).1 ((hmem 0).mpr ⟨d, i, hi, hkey⟩)
  · rintro ⟨hle, hnext, hstem⟩
    have hrest := hkeys.mpr ⟨hle, hnext⟩
    split_ifs with hend
    · refine List.nodup_cons.mpr ⟨fun hin => ?_, hrest⟩
      obtain ⟨d, i, hi, hkey⟩ := (hmem 0).mp hin
      exact hzero.mpr (hstem (hends.mp hend)) d i hi hkey
    · exact hrest

/-- `FuzzyFind` into an empty map loses no word exactly when the ties of the words below the nearest
stem fit. With no threshold, it assigns all stored words that begin with a letter. -/
theorem fuzzyFindLogged_noneLost (hplain : ∀ w ∈ words, Plain w) (columns : Text → Nat → Nat)
    (max_diff_ : Int) {fuel : Nat} (hfuel : (words.map List.length).sum < fuel) {query : Text}
    (hne : query ≠ []) (hzero : 0 ∉ query) :
    ∃ m log, fuzzyFindLogged T columns max_diff_ fuel query T.root ∅ = .ok (m, log) ∧
      (NoneLost m log ↔ ∀ p, NearestStem words query p →
        KeysFit (sharingDistance t columns max_diff_ query p) (Stored words p)) ∧
      (max_diff_ = 0 → (log.map Prod.snd).Nodup ∧ ∀ c, query = [c] → ∀ x, Stored words x →
        x.head? = some c → x ∈ log.map Prod.snd) := by
  obtain ⟨m, p, hp, hrun⟩ :=
    fuzzyFindLogged_nearest hbuilt (ascii_of_stored hplain) columns max_diff_ hfuel hne hzero ∅
  have hnearest := nearestStem_iff hbuilt query
  refine ⟨m, _, hrun, ?_, ?_⟩
  · rw [fuzzyFindLogged_replay hrun]
    constructor
    · rintro ⟨hnodup, -⟩ q hq
      obtain ⟨hsome, heq⟩ := (hnearest q).mp hq
      obtain rfl : q = p := heq.trans hp.symm
      exact (nodup_keys_committed hbuilt hsome).mp hnodup
    · intro hfit
      apply noneLost_replay
      by_cases hempty : p = []
      · subst hempty
        exact List.nodup_nil
      · exact (nodup_keys_committed hbuilt hempty).mpr (hfit p ((hnearest p).mpr ⟨hempty, hp⟩))
  · rintro rfl
    by_cases hempty : p = []
    · subst hempty
      refine ⟨List.nodup_nil, ?_⟩
      rintro c rfl x hx hhead
      have hstem : NearestStem words [c] [c] := by
        refine ⟨List.cons_ne_nil _ _, List.prefix_rfl, ⟨x, hx, ?_⟩, fun q hq _ => hq.length_le⟩
        obtain ⟨rest, rfl⟩ := List.head?_eq_some_iff.mp hhead
        exact List.prefix_append [c] rest
      exact absurd (hp.trans ((hnearest [c]).mp hstem).2.symm) (List.cons_ne_nil _ _).symm
    · obtain ⟨hnodup, hall⟩ := committed_iff hbuilt columns query hempty
      refine ⟨hnodup, ?_⟩
      rintro c rfl x hx hhead
      obtain ⟨rest, rfl⟩ := List.head?_eq_some_iff.mp hhead
      have hle := ((hnearest p).mpr ⟨hempty, hp⟩).of_query
      have hone : p = [c] := by
        apply hle.eq_of_length
        have hpos := List.length_pos_iff.mpr hempty
        have hlen := hle.length_le
        simp only [List.length_singleton] at hlen ⊢
        omega
      exact (hall _).mpr ⟨hx, hone ▸ List.prefix_append [c] rest⟩

end

/-! ## When no word is lost -/

/-- `FuzzyFind` into an empty map loses no word exactly when the ties of the words below the nearest
stem fit: those of each distance in front of the keys of every other distance that a word has, and
in front of the key of the stem, when it is stored. -/
theorem no_word_is_lost_iff_the_ties_fit (words : List Text) (hplain : ∀ w ∈ words, Plain w)
    (query : Text) (hne : query ≠ []) (hzero : 0 ∉ query) (columns : Text → Nat → Nat)
    (max_diff_ : Int) (fuel : Nat) (hfuel : (words.map List.length).sum < fuel) :
    ∃ T t m log, Trie.insertAll fuel words .empty = .ok T ∧ Built T t words ∧
      fuzzyFind T columns max_diff_ fuel query T.root ∅ = .ok m ∧
      fuzzyFindLogged T columns max_diff_ fuel query T.root ∅ = .ok (m, log) ∧
      ((NoneLost m log ∧ (max_diff_ = 0 → ∀ c, query = [c] → ∀ x, Stored words x →
          x.head? = some c → ∃ k : Int, m[k]? = some x)) ↔
        ∀ p, NearestStem words query p →
          KeysFit (sharingDistance t columns max_diff_ query p) (Stored words p)) ∧
      ∀ p, p ≠ [] → ∀ d, sharingDistance t columns 0 query p d =
        (extensions words p).countP fun x => calcLevenshtein (columns x) query (cString x) = d := by
  obtain ⟨T, t, hinsert, hbuilt⟩ := insertAll_built (fun w hw => (hplain w hw).storable) hfuel
  obtain ⟨m, log, hrun, hiff, hletter⟩ :=
    fuzzyFindLogged_noneLost hbuilt hplain columns max_diff_ hfuel hne hzero
  have herase := fuzzyFindLogged_erase T columns max_diff_ fuel query T.root ∅
  rw [hrun] at herase
  refine ⟨T, t, m, log, hinsert, hbuilt, herase.symm, hrun, ?_, fun p hp d =>
    sharingDistance_zero hbuilt columns query hp d⟩
  rw [← hiff]
  constructor
  · exact fun h => h.1
  · intro hkept
    refine ⟨hkept, fun hzero c hc x hx hhead => ?_⟩
    obtain ⟨w, hw, rfl⟩ := List.mem_map.mp ((hletter hzero).2 c hc x hx hhead)
    exact ⟨w.1, hkept.kept w hw⟩

theorem no_word_is_lost_for_t_iff_the_ties_fit :
    ∃ T t m log, Trie.insertAll 9 [bytes "tea", bytes "ten"] .empty = .ok T ∧
      fuzzyFindLogged T (fun _ _ => 0) 0 9 (bytes "t") T.root ∅ = .ok (m, log) ∧
      ((NoneLost m log ∧ ((0 : Int) = 0 → ∀ c, bytes "t" = [c] → ∀ x,
          Stored [bytes "tea", bytes "ten"] x → x.head? = some c → ∃ k : Int, m[k]? = some x)) ↔
        ∀ p, NearestStem [bytes "tea", bytes "ten"] (bytes "t") p →
          KeysFit (sharingDistance t (fun _ _ => 0) 0 (bytes "t") p)
            (Stored [bytes "tea", bytes "ten"] p)) := by
  obtain ⟨T, t, m, log, hinsert, -, -, hrun, hiff, -⟩ :=
    no_word_is_lost_iff_the_ties_fit [bytes "tea", bytes "ten"] (by decide +kernel) (bytes "t")
      (by decide) (by decide) (fun _ _ => 0) 0 9 (by decide)
  exact ⟨T, t, m, log, hinsert, hrun, hiff⟩

/-! ## One word too many -/

/-- The `n`th of many words of four letters that begin with an a. -/
def crowdWord (n : Nat) : Text :=
  97 :: [97 + n / 289, 97 + n / 17 % 17, 97 + n % 17].map UInt8.ofNat

/-- Words at distance 3 from the letter a, one more than a key has ties, and one at distance 4. -/
def crowd : List Text := bytes "aaaaa" :: (List.range 4097).map crowdWord

theorem toNat_crowd {k : Nat} (h : k ≤ 16) : (UInt8.ofNat (97 + k)).toNat = 97 + k := by
  rw [UInt8.toNat_ofNat']
  omega

/-- The letters of these words lie between 97 and 113. -/
theorem mem_crowdWord {n : Nat} (hn : n < 4097) {c : UInt8} (hc : c ∈ crowdWord n) :
    97 ≤ c.toNat ∧ c.toNat ≤ 113 := by
  simp only [crowdWord, List.map_cons, List.map_nil, List.mem_cons, List.not_mem_nil,
    or_false] at hc
  rcases hc with rfl | rfl | rfl | rfl
  · decide
  · rw [toNat_crowd (by omega)]
    omega
  · rw [toNat_crowd (by omega)]
    omega
  · rw [toNat_crowd (by omega)]
    omega

theorem crowdWord_injOn {n n' : Nat} (hn : n < 4097) (hn' : n' < 4097)
    (h : crowdWord n = crowdWord n') : n = n' := by
  simp only [crowdWord, List.map_cons, List.map_nil, List.cons.injEq, true_and, and_true] at h
  have hparts := And.imp (congrArg UInt8.toNat) (And.imp (congrArg UInt8.toNat)
    (congrArg UInt8.toNat)) h
  rw [toNat_crowd (by omega), toNat_crowd (by omega), toNat_crowd (by omega),
    toNat_crowd (by omega), toNat_crowd (by omega), toNat_crowd (by omega)] at hparts
  omega

theorem lower_crowdWord {n : Nat} (hn : n < 4097) : lower (crowdWord n) = crowdWord n := by
  unfold lower
  conv_rhs => rw [← List.map_id (crowdWord n)]
  apply List.map_congr_left
  intro c hc
  have hrange := mem_crowdWord hn hc
  rw [id, ← UInt8.toNat_inj, toNat_tolower]
  exact if_neg (by omega)

theorem plain_crowd : ∀ w ∈ crowd, Plain w := by
  intro w hw
  rcases List.mem_cons.mp hw with rfl | hw
  · decide +kernel
  · obtain ⟨n, hn, rfl⟩ := List.mem_map.mp hw
    refine ⟨List.cons_ne_nil _ _, fun c hc => ?_⟩
    have hrange := mem_crowdWord (List.mem_range.mp hn) hc
    simp only [UInt8.lt_iff_toNat_lt, UInt8.reduceToNat]
    omega

theorem length_crowd : (crowd.map List.length).sum = 16393 := by
  have hfour : ((List.range 4097).map (List.length ∘ crowdWord)).sum =
      ((List.range 4097).map (List.length ∘ crowdWord)).length • 4 := by
    apply List.sum_eq_card_nsmul
    intro k hk
    obtain ⟨n, -, rfl⟩ := List.mem_map.mp hk
    rfl
  unfold crowd
  rw [List.map_cons, List.map_map, List.sum_cons, hfour, List.length_map, List.length_range]
  rfl

/-- A word of the crowd is as far from the letter as it has other letters. -/
theorem mem_extensions_crowd {w : Text} (hw : w ∈ crowd) (hlower : lower w = w)
    (hhead : w.head? = some 97) (hlong : 1 < w.length) (column : Nat → Nat) :
    w ∈ extensions crowd [97] ∧ calcLevenshtein column [97] (cString w) = (w.length : Int) - 1 := by
  obtain ⟨rest, rfl⟩ := List.head?_eq_some_iff.mp hhead
  refine ⟨mem_extensions.mpr ⟨⟨_, hw, hlower.symm⟩, List.prefix_append [97] rest, ?_⟩, ?_⟩
  · rintro heq
    rw [heq] at hlong
    exact absurd hlong (by decide)
  · rw [cString_of_ascii (plain_crowd _ hw).2, calcLevenshtein_letter]
    simp

theorem the_ties_of_the_crowd_do_not_fit (t : Tst UInt8) (columns : Text → Nat → Nat)
    {T : Trie} (hbuilt : Built T t crowd) :
    ¬ KeysFit (sharingDistance t columns 0 [97] [97]) (Stored crowd [97]) := by
  have hcrowd : ∀ n < 4097, crowdWord n ∈ crowd := fun n hn =>
    List.mem_cons_of_mem _ (List.mem_map_of_mem (List.mem_range.mpr hn))
  have hthree : 4097 ≤ sharingDistance t columns 0 [97] [97] 3 := by
    rw [sharingDistance_zero hbuilt columns [97] (List.cons_ne_nil _ _),
      List.countP_eq_length_filter]
    have hnodup : ((List.range 4097).map crowdWord).Nodup :=
      (List.nodup_map_iff_inj_on List.nodup_range).mpr fun n hn n' hn' =>
        crowdWord_injOn (List.mem_range.mp hn) (List.mem_range.mp hn')
    have hsub : (List.range 4097).map crowdWord ⊆ (extensions crowd [97]).filter fun x =>
        calcLevenshtein (columns x) [97] (cString x) = 3 := by
      intro w hw
      obtain ⟨n, hn, rfl⟩ := List.mem_map.mp hw
      have hlt := List.mem_range.mp hn
      obtain ⟨hmem, hdist⟩ := mem_extensions_crowd (hcrowd n hlt) (lower_crowdWord hlt) rfl
        (show 1 < 4 by decide) (columns (crowdWord n))
      exact List.mem_filter.mpr ⟨hmem, decide_eq_true hdist⟩
    simpa using (hnodup.subperm hsub).length_le
  have hfour : 0 < sharingDistance t columns 0 [97] [97] 4 := by
    rw [sharingDistance_zero hbuilt columns [97] (List.cons_ne_nil _ _), List.countP_pos_iff]
    obtain ⟨hmem, hdist⟩ := mem_extensions_crowd (w := bytes "aaaaa") List.mem_cons_self
      (by decide +kernel) (by decide) (by decide) (columns (bytes "aaaaa"))
    exact ⟨_, hmem, decide_eq_true hdist⟩
  intro hfit
  have hroom := hfit.before_next 3 4 (by decide) hfour
  omega

/-- Among 4097 words of four letters and one of five, a search for their first letter assigns a
key twice, and an assignment is not in the map that it gives. -/
theorem a_word_of_the_crowd_is_lost :
    (∀ w ∈ crowd, Plain w) ∧
    ∃ T m log, Trie.insertAll 16394 crowd .empty = .ok T ∧
      fuzzyFindLogged T (fun _ _ => 0) 0 16394 [97] T.root ∅ = .ok (m, log) ∧
      ¬ (log.map Prod.fst).Nodup ∧ ∃ w ∈ log, m[w.1]? ≠ some w.2 := by
  have hfuel : (crowd.map List.length).sum < 16394 := by
    rw [length_crowd]
    decide
  obtain ⟨T, t, hinsert, hbuilt⟩ :=
    insertAll_built (fun w hw => (plain_crowd w hw).storable) hfuel
  obtain ⟨m, log, hrun, hiff, hletter⟩ := fuzzyFindLogged_noneLost hbuilt plain_crowd
    (fun _ _ => 0) 0 hfuel (List.cons_ne_nil 97 []) (by decide)
  have hstem : NearestStem crowd [97] [97] := by
    refine ⟨List.cons_ne_nil _ _, List.prefix_rfl, ⟨bytes "aaaaa", ?_, by decide⟩,
      fun q hq _ => hq.length_le⟩
    exact ⟨bytes "aaaaa", List.mem_cons_self, by decide +kernel⟩
  have hlost : ¬ NoneLost m log := fun h =>
    the_ties_of_the_crowd_do_not_fit t _ hbuilt (hiff.mp h [97] hstem)
  refine ⟨plain_crowd, T, m, log, hinsert, hrun, fun hnodup => ?_, ?_⟩
  · rw [fuzzyFindLogged_replay hrun] at hlost
    exact hlost (noneLost_replay hnodup ∅)
  · by_contra hall
    have hkept : ∀ w ∈ log, m[w.1]? = some w.2 := fun w hw =>
      not_not.mp fun hne => hall ⟨w, hw, hne⟩
    exact hlost ⟨nodup_keys_of_kept (hletter rfl).1 hkept, hkept⟩

end anagram
