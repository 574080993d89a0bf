-- The high watermark of the ties, which GetMaxTies gives after a lookup. It is one
-- less than the most words that share a distance, so as long as it fits in the low
-- 12 bits of a key, the lookup has lost no word.
import Anagram.KeyScores

open search_trie outcome edit_distance

namespace anagram

/-! ## The watermark of a lookup -/

/-- `FuzzyFind`, which clears the watermark first, with what `GetMaxTies` gives after it. -/
def fuzzyFindTies (t : Trie) (columns : Text → Nat → Nat) (max_diff_ : Int) (fuel : Nat)
    (word : Text) (pParent : Option Nat) (words : Std.TreeMap Int Text) :
    Run (Std.TreeMap Int Text × Int) := do
  let (found, node, search_word) ← stemLoop t fuel pParent word word.length
  let words := if found then words.insert 0 search_word else words
  match node with
  | none => .ok (words, 0)
  | some node => do
    let s ← extrapolateAll t columns max_diff_ fuel node words search_word word
    .ok (s.words, s.tie_hwm_)

/-- Without the watermark, this is the lookup. -/
theorem fuzzyFindTies_fst (t : Trie) (columns : Text → Nat → Nat) (max_diff_ : Int) (fuel : Nat)
    (word : Text) (pParent : Option Nat) (words : Std.TreeMap Int Text) :
    (fuzzyFindTies t columns max_diff_ fuel word pParent words).map Prod.fst =
      fuzzyFind t columns max_diff_ fuel word pParent words := by
  unfold fuzzyFindTies fuzzyFind
  cases stemLoop t fuel pParent word word.length with
  | error e => rfl
  | ok r =>
    rcases r with ⟨found, node, search_word⟩
    simp only [bind_ok]
    cases node with
    | none => rfl
    | some node =>
      dsimp only
      cases extrapolateAll t columns max_diff_ fuel node _ search_word word <;> rfl

/-! ## What the watermark says -/

/-- The watermark is one less than the most words that share a score, or 0 when none do. -/
structure Watermark (sharing : Int → Nat) (hwm : Int) : Prop where
  nonneg : 0 ≤ hwm
  sharing_le : ∀ x, (sharing x : Int) ≤ hwm + 1
  reached : hwm = 0 ∨ ∃ x, (sharing x : Int) = hwm + 1

theorem watermark_start (score : Text → Int) : Watermark (tally score []) 0 where
  nonneg := le_rfl
  sharing_le x := by simp [tally]
  reached := Or.inl rfl

/-- A word whose score is not new raises the watermark to its tie breaker, if that is higher. -/
theorem breakTie_hwm {score : Text → Int} {vs : List Text} {s : Extrapolation}
    (h : Counted score vs s) (x : Int) : (breakTie x s).2.tie_hwm_ =
      if tally score vs x = 0 then s.tie_hwm_ else max s.tie_hwm_ (tally score vs x) := by
  have hlookup := h x
  unfold breakTie
  split_ifs at hlookup ⊢ with hzero
  · rw [hlookup]
  · rw [hlookup]
    dsimp only
    split_ifs <;> omega

/-- One more word keeps the watermark right. -/
theorem Watermark.snoc {score : Text → Int} {vs : List Text} {s : Extrapolation}
    (hmark : Watermark (tally score vs) s.tie_hwm_) (hcount : Counted score vs s) (v : Text) :
    Watermark (tally score (vs ++ [v])) (breakTie (score v) s).2.tie_hwm_ := by
  rcases hmark with ⟨hnonneg, hle, hreached⟩
  have hv := hle (score v)
  have hsame := tally_snoc score vs v (score v)
  rw [if_pos rfl] at hsame
  rw [breakTie_hwm hcount]
  refine ⟨?_, fun x => ?_, ?_⟩
  · split_ifs <;> omega
  · have hx := hle x
    rw [tally_snoc]
    split_ifs with hscore hzero hzero
    · subst hscore
      omega
    · subst hscore
      omega
    · omega
    · omega
  · -- the score of the word, or one that had the most words before
    by_cases htop : s.tie_hwm_ ≤ tally score vs (score v)
    · by_cases hzero : tally score vs (score v) = 0
      · rw [if_pos hzero]
        exact Or.inl (by omega)
      · rw [if_neg hzero]
        refine Or.inr ⟨score v, ?_⟩
        omega
    · rcases hreached with hstart | ⟨x, hx⟩
      · omega
      · have hother : score v ≠ x := by
          intro heq
          subst heq
          omega
        refine Or.inr ⟨x, ?_⟩
        rw [tally_snoc, if_neg hother]
        split_ifs <;> omega

section
variable (columns : Text → Nat → Nat) (stem word : Text)

/-- The words of a traversal keep the count of each score, and with it the watermark. -/
theorem foldl_addWord_watermark {us : List Text} (vs : List Text) {s : Extrapolation}
    (hcount : Counted (scoreOf columns stem word) us s)
    (hmark : Watermark (tally (scoreOf columns stem word) us) s.tie_hwm_) :
    Watermark (tally (scoreOf columns stem word) (us ++ vs))
      (vs.foldl (addWord columns stem word) s).tie_hwm_ := by
  induction vs generalizing us s with
  | nil => simpa using hmark
  | cons v vs ih =>
    have haccum : Counted (scoreOf columns stem word) us { s with accum := v } := hcount
    have hnext : Counted (scoreOf columns stem word) (us ++ [v])
        (addWord columns stem word s v) := by
      intro x
      have hlookup : (addWord columns stem word s v).tie_breaker_lookup = _ :=
        (breakTie_counted haccum (scoreOf columns stem word v)).2.2
      rw [hlookup, Std.TreeMap.getElem?_insert, tally_snoc]
      by_cases hx : scoreOf columns stem word v = x
      · subst hx
        simp
      · simp [hx, hcount x]
    have hstep : Watermark (tally (scoreOf columns stem word) (us ++ [v]))
        (addWord columns stem word s v).tie_hwm_ :=
      Watermark.snoc (s := { s with accum := v }) hmark haccum v
    have hrest := ih hnext hstep
    rw [List.append_assoc, List.singleton_append] at hrest
    exact hrest

end

/-! ## The watermark and the keys -/

/-- Distances below 2 ^ 20 leave 4096 keys to each, so the ties fit when the watermark does. -/
theorem keysFit_of_watermark {sharing : Int → Nat} {hwm : Int} {stem_stored : Prop}
    (hmark : Watermark sharing hwm) (hroom : hwm < 4096)
    (hrange : ∀ d, 0 < sharing d → 0 < d ∧ d < 2 ^ 20) : KeysFit sharing stem_stored := by
  have hle : ∀ d, (sharing d : Int) ≤ 4096 := fun d => by
    have hd := hmark.sharing_le d
    omega
  refine ⟨fun d => ?_, fun d e hne he => ?_, fun _ d => ?_⟩
  · have hd := hle d
    omega
  · have hd := hle d
    have he' := hrange e he
    by_cases hzero : sharing d = 0
    · have hnonneg : 0 ≤ (4096 * (e - d)) % 2 ^ 32 := Int.emod_nonneg _ (by omega)
      omega
    · have hd' := hrange d (by omega)
      omega
  · have hd := hle d
    by_cases hzero : sharing d = 0
    · have hnonneg : 0 ≤ -(4096 * d) % 2 ^ 32 := Int.emod_nonneg _ (by omega)
      omega
    · have hd' := hrange d (by omega)
      omega

section
variable {T : Trie} {t : Tst UInt8} {words : List Text} (hbuilt : Built T t words)
include hbuilt

/-- The watermark of a lookup is that of the words that it gets to below the nearest stem. -/
theorem fuzzyFindTies_nearest (hascii : ∀ x, Stored words x → Ascii x)
    (columns : Text → Nat → Nat) (max_diff_ : Int) {fuel : Nat}
    (hfuel : (words.map List.length).sum < fuel) {query : Text} (hne : query ≠ [])
    (hzero : 0 ∉ query) (start : Std.TreeMap Int Text) :
    ∃ m hwm p, p = nearest t query query.length ∧
      fuzzyFindTies T columns max_diff_ fuel query T.root start = .ok (m, hwm) ∧
      Watermark (sharingDistance t columns max_diff_ query p) hwm := by
  have hstem := stemLoop_nearest hbuilt hascii hfuel hne hzero query.length
  generalize nearest t query query.length = p at hstem
  unfold fuzzyFindTies sharingDistance
  rw [hstem, bind_ok]
  dsimp only
  cases hhead : (stemAt t p).head with
  | none =>
    have hnil := Tst.head_eq_none.mp hhead
    refine ⟨_, 0, p, rfl, rfl, ?_⟩
    simpa [below, hnil, Tst.center, Tst.visited] using watermark_start _
  | some a =>
    generalize (if (stemAt t p).ends = true then start.insert 0 p else start) = words'
    obtain ⟨n, hnode, hrun⟩ := extrapolateLogged_below hbuilt columns max_diff_ query p hfuel
      hhead (s := ⟨words', ∅, [], 0⟩) rfl []
    have herase := extrapolateLogged_erase T columns a p query max_diff_ fuel n.c_
      ⟨words', ∅, [], 0⟩ []
    rw [hrun] at herase
    have hempty : Counted (scoreOf columns p query) [] ⟨words', ∅, [], 0⟩ := by
      intro x
      simp [tally]
    have hmark := foldl_addWord_watermark columns p query (below t columns max_diff_ query p)
      hempty (watermark_start _)
    rw [← fst_foldl_addWrite columns p query _ (_, [])] at hmark
    refine ⟨((below t columns max_diff_ query p).foldl (addWrite columns p query)
      (⟨words', ∅, [], 0⟩, [])).1.words, _, p, rfl, ?_, hmark⟩
    unfold extrapolateAll
    dsimp only
    rw [hnode, bind_ok, ← herase]
    rfl

/-- A word below the stem is longer than the stem, so its distance from the query is not 0. -/
theorem sharingDistance_range (hascii : ∀ x, Stored words x → Ascii x)
    (columns : Text → Nat → Nat) (max_diff_ : Int) {query p : Text} (hne : query ≠ [])
    (hp : NearestStem words query p) (hquery : query.length < 2 ^ 20)
    (hwords : ∀ w ∈ words, w.length < 2 ^ 20) {d : Int}
    (hd : 0 < sharingDistance t columns max_diff_ query p d) : 0 < d ∧ d < 2 ^ 20 := by
  rcases List.countP_pos_iff.mp hd with ⟨v, hv, hscore⟩
  have hstored := stored_of_below hbuilt hp.ne_nil hv
  have hmore := ((mem_words_stemAt hbuilt hp.ne_nil v).mp ((Tst.visited_sublist _ _).subset hv)).1
  have hdist := scoreOf_eq hne (hascii _ hstored) columns
  rw [decide_eq_true_eq] at hscore
  rw [hscore] at hdist
  constructor
  · have hpos : levenshtein query (p ++ v) ≠ 0 := by
      intro hsame
      have hquery := levenshtein_eq_zero.mp hsame
      have hself := query_of_stored hp (hquery ▸ hstored)
      rw [← hself] at hquery
      exact hmore (List.self_eq_append_right.mp hquery)
    omega
  · rcases hstored with ⟨w, hw, hlower⟩
    have hle := levenshtein_le query (p ++ v)
    have hlen : (p ++ v).length = w.length := by rw [hlower, lower, List.length_map]
    have hword := hwords w hw
    omega

end

/-- After a lookup into an empty map, the watermark is one less than the most words that it got to
at one distance from the query. Where no text has 2 ^ 20 bytes, the lookup has lost no word if the
watermark is below 4096. -/
theorem the_watermark_tells_that_no_word_is_lost (words : List Text)
    (hplain : ∀ w ∈ words, Plain w) (hwords : ∀ w ∈ words, w.length < 2 ^ 20) (query : Text)
    (hne : query ≠ []) (hzero : 0 ∉ query) (hquery : query.length < 2 ^ 20)
    (columns : Text → Nat → Nat) (max_diff_ : Int) (fuel : Nat)
    (hfuel : (words.map List.length).sum < fuel) :
    ∃ T t m log hwm, Trie.insertAll fuel words .empty = .ok T ∧ Built T t words ∧
      fuzzyFindTies T columns max_diff_ fuel query T.root ∅ = .ok (m, hwm) ∧
      fuzzyFindLogged T columns max_diff_ fuel query T.root ∅ = .ok (m, log) ∧
      ((∀ p, ¬ NearestStem words query p) → hwm = 0) ∧
      (∀ p, NearestStem words query p →
        Watermark (sharingDistance t columns max_diff_ query p) hwm) ∧
      (∀ p, p ≠ [] → ∀ d, sharingDistance t columns 0 query p d =
        (extensions words p).countP fun x => calcLevenshtein (columns x) query (cString x) = d) ∧
      (hwm < 4096 → NoneLost m log) := by
  obtain ⟨T, t, hinsert, hbuilt⟩ := insertAll_built (fun w hw => (hplain w hw).storable) hfuel
  have hascii := ascii_of_stored hplain
  obtain ⟨m, log, hlogged, hkept, -⟩ :=
    fuzzyFindLogged_noneLost hbuilt hplain columns max_diff_ hfuel hne hzero
  obtain ⟨m', hwm, p, hp, hrun, hmark⟩ :=
    fuzzyFindTies_nearest hbuilt hascii columns max_diff_ hfuel hne hzero ∅
  have hnearest := nearestStem_iff hbuilt query
  -- both are the lookup, so they give the same map
  have hsame : m' = m := by
    have hlookup := fuzzyFindTies_fst T columns max_diff_ fuel query T.root ∅
    have herase := fuzzyFindLogged_erase T columns max_diff_ fuel query T.root ∅
    rw [hrun] at hlookup
    rw [hlogged, ← hlookup] at herase
    exact (Except.ok.inj herase).symm
  subst hsame
  have hat : ∀ q, NearestStem words query q →
      Watermark (sharingDistance t columns max_diff_ query q) hwm := by
    intro q hq
    obtain rfl : q = p := ((hnearest q).mp hq).2.trans hp.symm
    exact hmark
  refine ⟨T, t, m', log, hwm, hinsert, hbuilt, hrun, hlogged, fun hnone => ?_, hat,
    fun q hq d => sharingDistance_zero hbuilt columns query hq d, fun hroom => ?_⟩
  · have hempty : p = [] := by
      by_contra hsome
      exact hnone p ((hnearest p).mpr ⟨hsome, hp⟩)
    subst hempty
    rcases hmark with ⟨hnonneg, -, hstart | ⟨x, hx⟩⟩
    · exact hstart
    · have hzero : sharingDistance t columns max_diff_ query [] x = 0 := rfl
      omega
  · apply hkept.mpr
    intro q hq
    exact keysFit_of_watermark (hat q hq) hroom fun d hd =>
      sharingDistance_range hbuilt hascii columns max_diff_ hne hq hquery hwords hd

theorem the_watermark_of_t_tells_that_no_word_is_lost :
    ∃ T m log hwm, Trie.insertAll 9 [bytes "tea", bytes "ten"] .empty = .ok T ∧
      fuzzyFindTies T (fun _ _ => 0) 0 9 (bytes "t") T.root ∅ = .ok (m, hwm) ∧
      fuzzyFindLogged T (fun _ _ => 0) 0 9 (bytes "t") T.root ∅ = .ok (m, log) ∧
      0 < hwm ∧ (hwm < 4096 → NoneLost m log) := by
  obtain ⟨T, t, m, log, hwm, hinsert, -, hrun, hlogged, -, hmark, hcount, hkept⟩ :=
    the_watermark_tells_that_no_word_is_lost [bytes "tea", bytes "ten"] (by decide +kernel)
      (by decide +kernel) (bytes "t") (by decide) (by decide) (by decide) (fun _ _ => 0) 0 9
      (by decide)
  have hstem : NearestStem [bytes "tea", bytes "ten"] (bytes "t") (bytes "t") := by decide +kernel
  have htwo : sharingDistance t (fun _ _ => 0) 0 (bytes "t") (bytes "t") 2 = 2 := by
    rw [hcount (bytes "t") (by decide)]
    decide +kernel
  have hle := (hmark _ hstem).sharing_le 2
  exact ⟨T, m, log, hwm, hinsert, hrun, hlogged, by omega, hkept⟩

end anagram
