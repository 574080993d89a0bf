-- The threshold of the lookup. At a word past the threshold the traversal returns
-- at once, and leaves out all that hangs below the node: longer words, and the
-- siblings that the order of the insertions happened to put there.
import Anagram.KeyClashes
import Anagram.LevenshteinLaws

open search_trie outcome edit_distance

namespace anagram

/-! ## Scores are distances -/

/-- The score of a stored word is its distance from the query. -/
theorem scoreOf_eq {query p v : Text} (hne : query ≠ []) (hascii : Ascii (p ++ v))
    (columns : Text → Nat → Nat) : scoreOf columns p query v = levenshtein query (p ++ v) := by
  unfold scoreOf
  rw [cString_of_ascii hascii, calcLevenshtein_eq (Or.inl hne)]

theorem isOver_eq_false_iff {query p v : Text} (hne : query ≠ []) (hascii : Ascii (p ++ v))
    (columns : Text → Nat → Nat) {d : Int} (hd : 0 < d) :
    isOver columns p query d v = false ↔ (levenshtein query (p ++ v) : Int) ≤ d := by
  unfold isOver
  rw [scoreOf_eq hne hascii, decide_eq_false_iff_not]
  omega

/-! ## What the threshold lets through -/

/-- The words that are committed besides the stem are those that go on after it and are no
farther from the query than the threshold. -/
def FiltersExactly (words : List Text) (query p : Text) (d : Int) (log : List Write) : Prop :=
  ∀ x, x ≠ p → (x ∈ log.map Prod.snd ↔
    x ∈ extensions words p ∧ (levenshtein query x : Int) ≤ d)

/-- On the search path of a word below the stem that is within the threshold, every word that ends
at a node before it is within the threshold too. -/
def NoneFartherPassed (t : Tst UInt8) (query p : Text) (d : Int) : Prop :=
  ∀ k w, (stemAt t p).center.find k w = true → (levenshtein query (p ++ k :: w) : Int) ≤ d →
    ∀ u ∈ (stemAt t p).center.passed k w, (levenshtein query (p ++ u) : Int) ≤ d

/-- What is committed besides the stem are words below it. -/
theorem committed_below_iff {t : Tst UInt8} (columns : Text → Nat → Nat) (d : Int) (query : Text)
    {p x : Text} (hx : x ≠ p) :
    x ∈ ((if (stemAt t p).ends then [((0 : Int), p)] else []) ++
        assignments (scoreOf columns p query) p [] (below t columns d query p)).map Prod.snd ↔
      ∃ k w, x = p ++ k :: w ∧ k :: w ∈ below t columns d query p := by
  have hstem : x ∉ (if (stemAt t p).ends then [((0 : Int), p)] else []).map Prod.snd := by
    split_ifs <;> simp [hx]
  rw [List.map_append, List.mem_append, assignments_texts]
  constructor
  · rintro (h | h)
    · exact absurd h hstem
    · obtain ⟨v, hv, rfl⟩ := List.mem_map.mp h
      cases v with
      | nil => exact absurd (List.append_nil p) hx
      | cons k w => exact ⟨k, w, rfl, hv⟩
  · rintro ⟨k, w, rfl, hmem⟩
    exact Or.inr (List.mem_map_of_mem hmem)

section
variable {T : Trie} {t : Tst UInt8} {words : List Text} (hbuilt : Built T t words)
include hbuilt

theorem ordered_stemAt (p : Text) : (stemAt t p).center.Ordered := by
  cases p with
  | nil => exact trivial
  | cons d rest => exact Tst.ordered_center (Tst.ordered_stem hbuilt.ordered d rest)

/-- A word below the stem is committed when it is within the threshold, and no word that is not
is passed on the way to it. -/
theorem mem_below_iff (hascii : ∀ x, Stored words x → Ascii x) (columns : Text → Nat → Nat)
    {query p : Text} (hne : query ≠ []) (hp : p ≠ []) {d : Int} (hd : 0 < d) (k : UInt8)
    (w : Text) : k :: w ∈ below t columns d query p ↔
      (stemAt t p).center.find k w = true ∧ (levenshtein query (p ++ k :: w) : Int) ≤ d ∧
        ∀ u ∈ (stemAt t p).center.passed k w, (levenshtein query (p ++ u) : Int) ≤ d := by
  have hword : ∀ v ∈ (stemAt t p).center.words,
      (isOver columns p query d v = false ↔ (levenshtein query (p ++ v) : Int) ≤ d) :=
    fun v hv => isOver_eq_false_iff hne (hascii _ ((mem_words_stemAt hbuilt hp v).mp hv).2)
      columns hd
  have hord := ordered_stemAt hbuilt p
  unfold below
  rw [Tst.mem_visited hord]
  apply and_congr_right
  intro hfind
  apply and_congr
  · exact hword _ ((Tst.mem_words hord).mpr hfind)
  · apply forall₂_congr
    intro u hu
    exact hword u (Tst.passed_subset _ _ _ hu)

/-- A letter at least follows after the stem in a word that goes on. -/
theorem mem_extensions_iff {p x : Text} (hp : p ≠ []) : x ∈ extensions words p ↔
    ∃ k w, x = p ++ k :: w ∧ (stemAt t p).center.find k w = true := by
  have hword := mem_words_stemAt hbuilt hp
  have hord := ordered_stemAt hbuilt p
  rw [mem_extensions]
  constructor
  · rintro ⟨hstored, ⟨v, rfl⟩, hx⟩
    cases v with
    | nil => exact absurd (List.append_nil p) hx
    | cons k w =>
      exact ⟨k, w, rfl, (Tst.mem_words hord).mp ((hword _).mpr ⟨List.cons_ne_nil _ _, hstored⟩)⟩
  · rintro ⟨k, w, rfl, hfind⟩
    refine ⟨((hword _).mp ((Tst.mem_words hord).mpr hfind)).2, List.prefix_append _ _, fun h => ?_⟩
    exact List.cons_ne_nil k w (List.append_right_eq_self.mp h)

end

/-- With a threshold, `FuzzyFind` commits exactly the words within it below the nearest stem when
the traversal passes no word past it on the way to one within it. -/
theorem the_threshold_filters_exactly_iff_none_farther_is_passed (words : List Text)
    (hplain : ∀ w ∈ words, Plain w) (query : Text) (hne : query ≠ []) (hzero : 0 ∉ query)
    (columns : Text → Nat → Nat) {d : Int} (hd : 0 < d) (fuel : Nat)
    (hfuel : (words.map List.length).sum < fuel) :
    ∃ T t m log, Trie.insertAll fuel words .empty = .ok T ∧ Built T t words ∧
      fuzzyFind T columns d fuel query T.root ∅ = .ok m ∧
      fuzzyFindLogged T columns d fuel query T.root ∅ = .ok (m, log) ∧
      ∀ p, NearestStem words query p →
        (FiltersExactly words query p d log ↔ NoneFartherPassed t query p d) := by
  obtain ⟨T, t, hinsert, hbuilt⟩ := insertAll_built (fun w hw => (hplain w hw).storable) hfuel
  have hascii := ascii_of_stored hplain
  obtain ⟨m, p, hp, hrun⟩ := fuzzyFindLogged_nearest hbuilt hascii columns d hfuel hne hzero ∅
  have herase := fuzzyFindLogged_erase T columns d fuel query T.root ∅
  rw [hrun] at herase
  refine ⟨T, t, m, _, hinsert, hbuilt, herase.symm, hrun, fun q hq => ?_⟩
  obtain ⟨hsome, heq⟩ := (nearestStem_iff hbuilt query q).mp hq
  obtain rfl : q = p := heq.trans hp.symm
  have hbelow := mem_below_iff hbuilt hascii columns hne hsome hd
  constructor
  · intro hexact k w hfind hle
    have hself : q ++ k :: w ≠ q := fun h =>
      List.cons_ne_nil k w (List.append_right_eq_self.mp h)
    have hmem := (hexact _ hself).mpr
      ⟨(mem_extensions_iff hbuilt hsome).mpr ⟨k, w, rfl, hfind⟩, hle⟩
    obtain ⟨k', w', heq', hin⟩ := (committed_below_iff columns d query hself).mp hmem
    obtain ⟨rfl, rfl⟩ := List.cons.inj (List.append_cancel_left heq')
    exact ((hbelow k w).mp hin).2.2
  · intro hnone x hx
    rw [committed_below_iff columns d query hx, mem_extensions_iff hbuilt hsome]
    constructor
    · rintro ⟨k, w, rfl, hin⟩
      obtain ⟨hfind, hle, -⟩ := (hbelow k w).mp hin
      exact ⟨⟨k, w, rfl, hfind⟩, hle⟩
    · rintro ⟨⟨k, w, rfl, hfind⟩, hle⟩
      exact ⟨k, w, rfl, (hbelow k w).mpr ⟨hfind, hle, hnone k w hfind hle⟩⟩

theorem the_threshold_2_filters_ta_and_tbyz_iff_none_farther_is_passed :
    ∃ T t m log, Trie.insertAll 9 [bytes "ta", bytes "tbyz"] .empty = .ok T ∧
      Built T t [bytes "ta", bytes "tbyz"] ∧
      fuzzyFind T (fun _ _ => 0) 2 9 (bytes "txyz") T.root ∅ = .ok m ∧
      fuzzyFindLogged T (fun _ _ => 0) 2 9 (bytes "txyz") T.root ∅ = .ok (m, log) ∧
      ∀ p, NearestStem [bytes "ta", bytes "tbyz"] (bytes "txyz") p →
        (FiltersExactly [bytes "ta", bytes "tbyz"] (bytes "txyz") p 2 log ↔
          NoneFartherPassed t (bytes "txyz") p 2) :=
  the_threshold_filters_exactly_iff_none_farther_is_passed _ (by decide +kernel) _ (by decide)
    (by decide) _ (by decide) _ (by decide)

/-- From "txyz", the word "tbyz" is at distance 1 and "ta" at distance 3. With a threshold of 2,
"ta" hides "tbyz" when it was inserted first, and does not when it was inserted later. -/
theorem ta_hides_tbyz_when_it_comes_first :
    NearestStem [bytes "ta", bytes "tbyz"] (bytes "txyz") (bytes "t") ∧
    bytes "tbyz" ∈ extensions [bytes "ta", bytes "tbyz"] (bytes "t") ∧
    (levenshtein (bytes "txyz") (bytes "tbyz") : Int) ≤ 2 ∧
    (∃ T m, Trie.insertAll 9 [bytes "ta", bytes "tbyz"] .empty = .ok T ∧
      fuzzyFindLogged T (fun _ _ => 0) 2 9 (bytes "txyz") T.root ∅ = .ok (m, [])) ∧
    ∃ T m log, Trie.insertAll 9 [bytes "tbyz", bytes "ta"] .empty = .ok T ∧
      fuzzyFindLogged T (fun _ _ => 0) 2 9 (bytes "txyz") T.root ∅ = .ok (m, log) ∧
      bytes "tbyz" ∈ log.map Prod.snd := by
  refine ⟨by decide +kernel, by decide +kernel, ?_, ⟨_, _, by rfl, by rfl⟩,
    ⟨_, _, _, by rfl, by rfl, by decide⟩⟩
  rw [← calcLevenshtein_eq (Or.inl (by decide)) fun _ => 0]
  decide

end anagram
