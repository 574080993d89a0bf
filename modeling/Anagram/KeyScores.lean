-- The keys of the result map as scores. A word that the traversal commits has its
-- distance above the low 12 bits of its key. The stem has key 0, as if it were the
-- query, also when the lookup had to shorten the query to get to it.
import Anagram.DistanceBound

open search_trie outcome edit_distance

namespace anagram

/-! ## The last assignment of a key -/

theorem replay_snoc (log : List Write) (w : Write) (words : Std.TreeMap Int Text) :
    replay (log ++ [w]) words = (replay log words).insert w.1 w.2 := by
  rw [replay_append]
  rfl

/-- An entry was there before and not assigned since, or is the last assignment of its key. -/
theorem getElem?_replay_iff (log : List Write) (words : Std.TreeMap Int Text) (k : Int) (x : Text) :
    (replay log words)[k]? = some x ↔ (words[k]? = some x ∧ ∀ w ∈ log, w.1 ≠ k) ∨
      ∃ done rest, log = done ++ (k, x) :: rest ∧ ∀ w ∈ rest, w.1 ≠ k := by
  constructor
  · intro h
    induction log using List.reverseRecOn with
    | nil => exact Or.inl ⟨h, by simp⟩
    | append_singleton log w ih =>
      rw [replay_snoc, Std.TreeMap.getElem?_insert] at h
      split_ifs at h with hk
      · rw [Std.LawfulEqCmp.compare_eq_iff_eq] at hk
        cases h
        exact Or.inr ⟨log, [], by rw [← hk], by simp⟩
      · rw [Std.LawfulEqCmp.compare_eq_iff_eq] at hk
        rcases ih h with ⟨hold, hnone⟩ | ⟨done, rest, rfl, hlast⟩
        · exact Or.inl ⟨hold, List.forall_mem_append.mpr
            ⟨hnone, List.forall_mem_singleton.mpr hk⟩⟩
        · exact Or.inr ⟨done, rest ++ [w], by simp, List.forall_mem_append.mpr
            ⟨hlast, List.forall_mem_singleton.mpr hk⟩⟩
  · rintro (⟨hold, hnone⟩ | ⟨done, rest, rfl, hlast⟩)
    · rw [getElem?_replay_of_ne hnone]
      exact hold
    · rw [← List.singleton_append, ← List.append_assoc, replay_append, getElem?_replay_of_ne hlast,
        replay_snoc, Std.TreeMap.getElem?_insert, if_pos Std.ReflCmp.compare_self]

/-- A key that has an entry keeps one. -/
theorem exists_getElem?_replay {log : List Write} {words : Std.TreeMap Int Text} {k : Int}
    {x : Text} (h : words[k]? = some x) : ∃ y, (replay log words)[k]? = some y := by
  induction log generalizing words x with
  | nil => exact ⟨x, h⟩
  | cons w log ih =>
    by_cases hk : w.1 = k
    · have hnew : (words.insert w.1 w.2)[k]? = some w.2 := by
        rw [Std.TreeMap.getElem?_insert, if_pos (Std.LawfulEqCmp.compare_eq_iff_eq.mpr hk)]
      exact ih hnew
    · have hold : (words.insert w.1 w.2)[k]? = some x := by
        rw [Std.TreeMap.getElem?_insert, if_neg (mt Std.LawfulEqCmp.compare_eq_iff_eq.mp hk)]
        exact h
      exact ih hold

/-- A part of the assignments belongs to a part of the words. -/
theorem assignments_eq_append_cons {score : Text → Int} {stem : Text} {us vs : List Text}
    {done rest : List Write} {w : Write}
    (h : assignments score stem us vs = done ++ w :: rest) :
    ∃ vs₁ v vs₂, vs = vs₁ ++ v :: vs₂ ∧
      w = (tieKey (tally score (us ++ vs₁) (score v)) (score v), stem ++ v) ∧
      rest = assignments score stem (us ++ vs₁ ++ [v]) vs₂ := by
  induction vs generalizing us done with
  | nil => simp [assignments] at h
  | cons v vs ih =>
    rw [assignments] at h
    cases done with
    | nil =>
      obtain ⟨rfl, rfl⟩ := List.cons.inj h
      exact ⟨[], v, vs, rfl, by simp, by simp⟩
    | cons u done =>
      rw [List.cons_append] at h
      obtain ⟨vs₁, v', vs₂, rfl, hw, hrest⟩ := ih (List.cons.inj h).2
      rw [List.append_assoc us, List.singleton_append] at hw hrest
      exact ⟨v :: vs₁, v', vs₂, rfl, hw, hrest⟩

theorem assignments_append (score : Text → Int) (stem : Text) (us vs vs' : List Text) :
    assignments score stem us (vs ++ vs') =
      assignments score stem us vs ++ assignments score stem (us ++ vs) vs' := by
  induction vs generalizing us with
  | nil => simp [assignments]
  | cons v vs ih => simp [assignments, ih]

/-! ## Keys and scores -/

/-- The entries of the map have their distance from the query in the key. So they stand in the
order of their distances, and only the query itself has key 0. -/
structure KeysEncode (words : List Text) (query : Text) (m : Std.TreeMap Int Text) : Prop where
  entry : ∀ (k : Int) x, m[k]? = some x →
    Stored words x ∧ k >>> (12 : Nat) = (levenshtein query x : Int)
  sorted : ∀ (k k' : Int) x x', m[k]? = some x → m[k']? = some x' → k ≤ k' →
    levenshtein query x ≤ levenshtein query x'
  exact_match : ∀ x, m[(0 : Int)]? = some x → x = query

theorem keysEncode_empty (words : List Text) (query : Text) : KeysEncode words query ∅ where
  entry k x hx := by simp at hx
  sorted k k' x x' hx _ _ := by simp at hx
  exact_match x hx := by simp at hx

/-- A later word has the key of `v`: its distance is the same modulo 2 ^ 20, and as many words of
its own distance come before it. -/
def Retaken (score : Text → Int) (us : List Text) (v : Text) (vs : List Text) : Prop :=
  ∃ vs₁ v' vs₂, vs = vs₁ ++ v' :: vs₂ ∧ score v' % 2 ^ 20 = score v % 2 ^ 20 ∧
    tally score (us ++ v :: vs₁) (score v') = tally score us (score v)

/-- The distance from the query of the word that goes on with `v` after the stem. -/
def distanceBelow (query p v : Text) : Int := levenshtein query (p ++ v)

/-- The stem is no stored word other than the query, and the distances of the words that the
lookup gets to below it fit in a key, unless a later word takes the key. -/
structure ScoresFit (words : List Text) (query p : Text) (vs : List Text) : Prop where
  stem : Stored words p → p = query
  distance_lt : ∀ us v vs', vs = us ++ v :: vs' → distanceBelow query p v < 2 ^ 19 ∨
    Retaken (distanceBelow query p) us v vs'

theorem tieKey_shift {tie score : Int} (htie : 0 ≤ tie ∧ tie < 4096)
    (hscore : 0 ≤ score ∧ score < 2 ^ 19) : tieKey tie score >>> (12 : Nat) = score := by
  rw [tieKey_eq htie hscore, Int.shiftRight_eq_div_pow]
  omega

/-- A key is an `int`, so it has no room for a distance from 2 ^ 19 on. -/
theorem tieKey_shift_lt (tie score : Int) : tieKey tie score >>> (12 : Nat) < 2 ^ 19 := by
  have hlt := Int.bmod_lt (x := tie + score * 4096) (m := 2 ^ 32) (by decide)
  rw [Int.shiftRight_eq_div_pow]
  unfold tieKey
  omega

theorem tieKey_eq_iff_of_lt {tie tie' score score' : Int} (htie : 0 ≤ tie ∧ tie < 4096)
    (htie' : 0 ≤ tie' ∧ tie' < 4096) : tieKey tie score = tieKey tie' score' ↔
      tie = tie' ∧ score % 2 ^ 20 = score' % 2 ^ 20 := by
  rw [tieKey_eq_iff]
  omega

theorem assignments_congr {f g : Text → Int} (stem : Text) {us vs : List Text}
    (h : ∀ v ∈ us ++ vs, f v = g v) : assignments f stem us vs = assignments g stem us vs := by
  induction vs generalizing us with
  | nil => rfl
  | cons v vs ih =>
    have hv : f v = g v := h v (by simp)
    have htally : tally f us (g v) = tally g us (g v) := by
      unfold tally
      apply List.countP_congr
      intro u hu
      rw [h u (List.mem_append_left _ hu)]
    rw [assignments, assignments, hv, htally, ih (by simpa using h)]

section
variable {score : Text → Int} {stem : Text} {vs : List Text}
  (hscore : ∀ v, 0 ≤ score v) (hties : ∀ x, tally score vs x < 4096)

include hties in
/-- The number of a word among those of its distance fits in the low 12 bits. -/
theorem tie_lt {us : List Text} {v : Text} {rest : List Text} (hvs : vs = us ++ v :: rest) :
    0 ≤ (tally score us (score v) : Int) ∧ (tally score us (score v) : Int) < 4096 := by
  have hlt := hties (score v)
  have hle : tally score us (score v) ≤ tally score vs (score v) := by
    rw [hvs]
    exact (List.sublist_append_left us _).countP_le
  omega

include hties in
/-- A later word takes the key of a word when some later assignment is to this key. -/
theorem retaken_iff {us : List Text} {v : Text} {rest : List Text} (hvs : vs = us ++ v :: rest) :
    Retaken score us v rest ↔ ∃ w ∈ assignments score stem (us ++ [v]) rest,
      w.1 = tieKey (tally score us (score v)) (score v) := by
  have hsplit : ∀ vs₁ : List Text, us ++ [v] ++ vs₁ = us ++ v :: vs₁ := by simp
  constructor
  · rintro ⟨vs₁, v', vs₂, rfl, hmod, htally⟩
    refine ⟨(tieKey (tally score (us ++ [v] ++ vs₁) (score v')) (score v'), stem ++ v'), ?_, ?_⟩
    · rw [assignments_append, List.mem_append]
      exact Or.inr List.mem_cons_self
    · have htie := tie_lt hties hvs
      rw [hsplit, htally, tieKey_eq_iff_of_lt htie htie]
      exact ⟨rfl, hmod⟩
  · rintro ⟨w, hw, hkey⟩
    obtain ⟨done, more, hmem⟩ := List.append_of_mem hw
    obtain ⟨vs₁, v', vs₂, rfl, rfl, -⟩ := assignments_eq_append_cons hmem
    rw [hsplit] at hkey
    have hvs' : vs = (us ++ v :: vs₁) ++ v' :: vs₂ := by simp [hvs]
    obtain ⟨htally, hmod⟩ := (tieKey_eq_iff_of_lt (tie_lt hties hvs') (tie_lt hties hvs)).mp hkey
    exact ⟨vs₁, v', vs₂, rfl, hmod, by exact_mod_cast htally⟩

include hscore hties in
/-- An entry of the map was there before, or has the distance of a word in its key. -/
theorem entry_of_fit (hfit : ∀ us v vs', vs = us ++ v :: vs' → score v < 2 ^ 19 ∨
    Retaken score us v vs') {start : Std.TreeMap Int Text} {k : Int} {x : Text}
    (h : (replay (assignments score stem [] vs) start)[k]? = some x) :
    start[k]? = some x ∨ ∃ v ∈ vs, x = stem ++ v ∧ k >>> (12 : Nat) = score v := by
  rcases (getElem?_replay_iff _ _ _ _).mp h with ⟨hold, -⟩ | ⟨done, rest, hsplit, hlast⟩
  · exact Or.inl hold
  · obtain ⟨us, v, vs', hvs, hw, rfl⟩ := assignments_eq_append_cons hsplit
    obtain ⟨rfl, rfl⟩ := Prod.mk.inj hw
    refine Or.inr ⟨v, by simp [hvs], rfl, ?_⟩
    rcases hfit us v vs' hvs with hlt | hretaken
    · exact tieKey_shift (tie_lt hties hvs) ⟨hscore v, hlt⟩
    · obtain ⟨w, hw, hkey⟩ := (retaken_iff hties hvs).mp hretaken
      exact absurd hkey (hlast w hw)

include hties in
/-- A word whose distance does not fit leaves an entry with a wrong key, if its key is not taken
by a later word. -/
theorem fit_of_entry {start : Std.TreeMap Int Text}
    (h : ∀ (k : Int) x, (replay (assignments score stem [] vs) start)[k]? = some x →
      ∀ v ∈ vs, x = stem ++ v → k >>> (12 : Nat) = score v)
    {us : List Text} {v : Text} {vs' : List Text} (hvs : vs = us ++ v :: vs') :
    score v < 2 ^ 19 ∨ Retaken score us v vs' := by
  by_contra hnot
  push Not at hnot
  obtain ⟨hlarge, hretaken⟩ := hnot
  have hlast : ∀ w ∈ assignments score stem (us ++ [v]) vs',
      w.1 ≠ tieKey (tally score us (score v)) (score v) :=
    fun w hw hkey => hretaken ((retaken_iff hties hvs).mpr ⟨w, hw, hkey⟩)
  have hentry : (replay (assignments score stem [] vs) start)[tieKey (tally score us (score v))
      (score v)]? = some (stem ++ v) := by
    refine (getElem?_replay_iff _ _ _ _).mpr (Or.inr ⟨assignments score stem [] us, _, ?_, hlast⟩)
    rw [hvs, assignments_append, List.nil_append, assignments]
  have hkey := h _ _ hentry v (by simp [hvs]) rfl
  have hlt := tieKey_shift_lt (tally score us (score v)) (score v)
  omega

end

/-! ## The keys of a lookup -/

/-- How many stored words are at a distance from the query. -/
def sharingScore (words : List Text) (query : Text) (n : Nat) : Nat :=
  (words.map lower).dedup.countP fun x => levenshtein query x = n

section
variable {T : Trie} {t : Tst UInt8} {words : List Text} (hbuilt : Built T t words)
include hbuilt

theorem stored_of_below {columns : Text → Nat → Nat} {d : Int} {query p v : Text} (hp : p ≠ [])
    (hv : v ∈ below t columns d query p) : Stored words (p ++ v) :=
  ((mem_words_stemAt hbuilt hp v).mp ((Tst.visited_sublist _ _).subset hv)).2

theorem tally_below_le (columns : Text → Nat → Nat) (d : Int) (query : Text) {p : Text}
    (hp : p ≠ []) (n : Nat) :
    tally (distanceBelow query p) (below t columns d query p) n ≤ sharingScore words query n := by
  have hnodup : ((below t columns d query p).map (p ++ ·)).Nodup :=
    ((Tst.visited_sublist _ _).nodup (nodup_words_stemAt hbuilt p)).map
      (List.append_right_injective p)
  have hsub : (below t columns d query p).map (p ++ ·) ⊆ (words.map lower).dedup := by
    intro x hx
    obtain ⟨v, hv, rfl⟩ := List.mem_map.mp hx
    obtain ⟨w, hw, heq⟩ := stored_of_below hbuilt hp hv
    exact List.mem_dedup.mpr (List.mem_map.mpr ⟨w, hw, heq.symm⟩)
  have hcount := (hnodup.subperm hsub).countP_le fun x => levenshtein query x = n
  rw [List.countP_map] at hcount
  unfold tally sharingScore distanceBelow
  simpa [Function.comp_def] using hcount

/-- When few stored words share a distance, so do few of the words below the stem. -/
theorem tally_below_lt (columns : Text → Nat → Nat) (d : Int) {query p : Text} (hp : p ≠ [])
    (hshare : ∀ n, sharingScore words query n < 4096) (x : Int) :
    tally (distanceBelow query p) (below t columns d query p) x < 4096 := by
  by_cases hx : 0 ≤ x
  · obtain ⟨n, rfl⟩ := Int.eq_ofNat_of_zero_le hx
    exact (tally_below_le hbuilt columns d query hp n).trans_lt (hshare n)
  · -- no distance is negative
    have hzero : tally (distanceBelow query p) (below t columns d query p) x = 0 := by
      unfold tally distanceBelow
      rw [List.countP_eq_zero]
      intro v _
      simp only [decide_eq_true_eq]
      omega
    omega

/-- The lookup starts with the stem under key 0, if it is stored. -/
theorem start_entry_iff {p : Text} (hp : p ≠ []) (k : Int) (x : Text) :
    (replay (if (stemAt t p).ends then [((0 : Int), p)] else []) ∅)[k]? = some x ↔
      Stored words p ∧ k = 0 ∧ x = p := by
  rw [← ends_stemAt hbuilt hp]
  cases (stemAt t p).ends with
  | false => simp [replay]
  | true =>
    simp only [if_true, replay, List.foldl_cons, List.foldl_nil, Std.TreeMap.getElem?_insert,
      Std.TreeMap.getElem?_emptyc, Std.LawfulEqCmp.compare_eq_iff_eq, true_and]
    by_cases hk : (0 : Int) = k
    · rw [if_pos hk, Option.some_inj, eq_comm]
      exact (and_iff_right hk.symm).symm
    · rw [if_neg hk]
      exact iff_of_false nofun fun h => hk h.1.symm

omit hbuilt in
/-- A stored query is its own nearest stem. -/
theorem query_of_stored {query p : Text} (hp : NearestStem words query p)
    (hstored : Stored words query) : p = query :=
  hp.of_query.eq_of_length_le (hp.longest query List.prefix_rfl ⟨query, hstored, List.prefix_rfl⟩)

/-- Where fewer than 4096 words share a distance, the map that a lookup makes from an empty one has
the distances in its keys exactly when they fit. -/
theorem keysEncode_iff_scoresFit (hascii : ∀ x, Stored words x → Ascii x)
    (columns : Text → Nat → Nat) (d : Int) {query p : Text} (hne : query ≠ [])
    (hp : NearestStem words query p) (hshare : ∀ n, sharingScore words query n < 4096) :
    KeysEncode words query (replay ((if (stemAt t p).ends then [((0 : Int), p)] else []) ++
      assignments (scoreOf columns p query) p [] (below t columns d query p)) ∅) ↔
      ScoresFit words query p (below t columns d query p) := by
  have hdist : assignments (scoreOf columns p query) p [] (below t columns d query p) =
      assignments (distanceBelow query p) p [] (below t columns d query p) := by
    apply assignments_congr
    intro v hv
    exact scoreOf_eq hne (hascii _ (stored_of_below hbuilt hp.ne_nil hv)) columns
  have hties := tally_below_lt hbuilt columns d hp.ne_nil hshare
  have hnonneg : ∀ v, 0 ≤ distanceBelow query p v := fun v => Int.natCast_nonneg _
  have hstart := start_entry_iff hbuilt hp.ne_nil
  have hstored : ∀ v ∈ below t columns d query p, Stored words (p ++ v) :=
    fun v hv => stored_of_below hbuilt hp.ne_nil hv
  rw [replay_append, hdist]
  constructor
  · intro henc
    refine ⟨fun hstem => ?_, fun us v vs' hvs => ?_⟩
    · obtain ⟨x, hx⟩ := exists_getElem?_replay ((hstart 0 p).mpr ⟨hstem, rfl, rfl⟩)
      obtain rfl := henc.exact_match x hx
      exact query_of_stored hp (henc.entry 0 x hx).1
    · exact fit_of_entry hties (fun k x hx v _ heq => by
        rw [(henc.entry k x hx).2, heq, distanceBelow]) hvs
  · rintro ⟨hstem, hfit⟩
    have hentry : ∀ (k : Int) x,
        (replay (assignments (distanceBelow query p) p [] (below t columns d query p))
          (replay (if (stemAt t p).ends then [((0 : Int), p)] else []) ∅))[k]? = some x →
        Stored words x ∧ k >>> (12 : Nat) = (levenshtein query x : Int) := by
      intro k x hx
      rcases entry_of_fit hnonneg hties hfit hx with hfirst | ⟨v, hv, rfl, hkey⟩
      · obtain ⟨hs, rfl, rfl⟩ := (hstart k x).mp hfirst
        obtain rfl := hstem hs
        exact ⟨hs, by rw [levenshtein_eq_zero.mpr rfl]; rfl⟩
      · exact ⟨hstored v hv, hkey⟩
    refine ⟨hentry, fun k k' x x' hx hx' hle => ?_, fun x hx => ?_⟩
    · have hk := (hentry k x hx).2
      have hk' := (hentry k' x' hx').2
      rw [Int.shiftRight_eq_div_pow] at hk hk'
      omega
    · have hzero := (hentry 0 x hx).2
      exact (levenshtein_eq_zero.mp (by simpa using hzero.symm)).symm

end

/-- Where fewer than 4096 stored words share a distance from the query, the keys that `FuzzyFind`
gives in an empty map encode the distances exactly when the scores fit. -/
theorem the_keys_encode_the_distances_iff_the_scores_fit (words : List Text)
    (hplain : ∀ w ∈ words, Plain w) (query : Text) (hne : query ≠ []) (hzero : 0 ∉ query)
    (hshare : ∀ n, sharingScore words query n < 4096) (columns : Text → Nat → Nat)
    (max_diff_ : Int) (fuel : Nat) (hfuel : (words.map List.length).sum < fuel) :
    ∃ T t m, Trie.insertAll fuel words .empty = .ok T ∧ Built T t words ∧
      fuzzyFind T columns max_diff_ fuel query T.root ∅ = .ok m ∧
      (KeysEncode words query m ↔ ∀ p, NearestStem words query p →
        ScoresFit words query p (below t columns max_diff_ query p)) := by
  obtain ⟨T, t, hinsert, hbuilt⟩ := insertAll_built (fun w hw => (hplain w hw).storable) hfuel
  have hascii := ascii_of_stored hplain
  obtain ⟨m, p, hp, hrun⟩ :=
    fuzzyFindLogged_nearest hbuilt hascii columns max_diff_ hfuel hne hzero ∅
  have herase := fuzzyFindLogged_erase T columns max_diff_ fuel query T.root ∅
  rw [hrun] at herase
  refine ⟨T, t, m, hinsert, hbuilt, herase.symm, ?_⟩
  have hnearest := nearestStem_iff hbuilt query
  rw [fuzzyFindLogged_replay hrun]
  by_cases hempty : p = []
  · -- no stem, and no entries
    subst hempty
    refine iff_of_true (keysEncode_empty words query) fun q hq => ?_
    obtain ⟨hsome, heq⟩ := (hnearest q).mp hq
    exact absurd (heq.trans hp.symm) hsome
  · have hstem : NearestStem words query p := (hnearest p).mpr ⟨hempty, hp⟩
    rw [keysEncode_iff_scoresFit hbuilt hascii columns max_diff_ hne hstem hshare]
    constructor
    · intro hfit q hq
      obtain rfl : q = p := ((hnearest q).mp hq).2.trans hp.symm
      exact hfit
    · exact fun hall => hall p hstem

theorem the_keys_encode_the_distances_from_t_iff_the_scores_fit :
    ∃ T t m, Trie.insertAll 9 [bytes "ta", bytes "tbyz"] .empty = .ok T ∧
      Built T t [bytes "ta", bytes "tbyz"] ∧
      fuzzyFind T (fun _ _ => 0) 0 9 (bytes "t") T.root ∅ = .ok m ∧
      (KeysEncode [bytes "ta", bytes "tbyz"] (bytes "t") m ↔
        ∀ p, NearestStem [bytes "ta", bytes "tbyz"] (bytes "t") p →
          ScoresFit [bytes "ta", bytes "tbyz"] (bytes "t") p
            (below t (fun _ _ => 0) 0 (bytes "t") p)) :=
  the_keys_encode_the_distances_iff_the_scores_fit _ (by decide +kernel) _ (by decide) (by decide)
    (fun _ => List.countP_le_length.trans_lt (by decide +kernel)) _ _ _ (by decide)

/-- From a trie with the word "a" alone, the lookup of "ab" gives "a" the key of an exact match. -/
theorem the_stem_a_of_ab_has_key_0 :
    (∀ n, sharingScore [bytes "a"] (bytes "ab") n < 4096) ∧
    ∃ T m, Trie.insertAll 2 [bytes "a"] .empty = .ok T ∧
      fuzzyFind T (fun _ _ => 0) 0 2 (bytes "ab") T.root ∅ = .ok m ∧
      m[(0 : Int)]? = some (bytes "a") ∧ ¬ KeysEncode [bytes "a"] (bytes "ab") m := by
  refine ⟨fun _ => List.countP_le_length.trans_lt (by decide +kernel), _, _, by rfl, by rfl,
    by rfl, fun henc => ?_⟩
  exact absurd (henc.exact_match (bytes "a") (by rfl)) (by decide)

end anagram
