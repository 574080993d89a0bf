-- What a lookup of a word finds. It goes back from the end of the word to the
-- longest stem that is in the trie, and commits the words that go on from there,
-- each of them once.
import Anagram.TieKeys
import Anagram.TrieBytes

open search_trie outcome

namespace anagram

/-! ## The nearest stem -/

/-- The subtree whose head the search for a text ends at. -/
def stemAt (t : Tst UInt8) : Text → Tst UInt8
  | [] => .nil
  | d :: rest => t.stem d rest

/-- The longest of the first `n` beginnings of a text that lead to a node. -/
def nearest (t : Tst UInt8) (query : Text) : Nat → Text
  | 0 => []
  | n + 1 =>
    if (stemAt t (query.take (n + 1))).head = none then nearest t query n
    else query.take (n + 1)

/-- The longest beginning of the query that a stored word begins with. -/
structure NearestStem (words : List Text) (query p : Text) : Prop where
  ne_nil : p ≠ []
  of_query : p <+: query
  stored : ∃ x, Stored words x ∧ p <+: x
  longest : ∀ q, q <+: query → (∃ x, Stored words x ∧ q <+: x) → q.length ≤ p.length

/-- It is enough to look at the beginnings of the query, one after another. -/
theorem nearestStem_iff_inits (words : List Text) (query p : Text) :
    NearestStem words query p ↔ p ≠ [] ∧ p <+: query ∧ (∃ w ∈ words, p <+: lower w) ∧
      ∀ q ∈ query.inits, (∃ w ∈ words, q <+: lower w) → q.length ≤ p.length := by
  have hstored : ∀ q : Text, (∃ x, Stored words x ∧ q <+: x) ↔ ∃ w ∈ words, q <+: lower w := by
    intro q
    constructor
    · rintro ⟨x, ⟨w, hw, rfl⟩, hq⟩
      exact ⟨w, hw, hq⟩
    · rintro ⟨w, hw, hq⟩
      exact ⟨_, ⟨w, hw, rfl⟩, hq⟩
  simp only [List.mem_inits, ← hstored]
  exact ⟨fun h => ⟨h.ne_nil, h.of_query, h.stored, h.longest⟩,
    fun h => ⟨h.1, h.2.1, h.2.2.1, h.2.2.2⟩⟩

instance (words : List Text) (query p : Text) : Decidable (NearestStem words query p) :=
  decidable_of_iff _ (nearestStem_iff_inits words query p).symm

theorem ascii_of_stored {words : List Text} (hplain : ∀ w ∈ words, Plain w) :
    ∀ x, Stored words x → Ascii x := by
  rintro x ⟨w, hw, rfl⟩
  exact ascii_lower (hplain w hw).2

theorem ne_nil_of_stored {words : List Text} (hplain : ∀ w ∈ words, Plain w) :
    ∀ x, Stored words x → x ≠ [] := by
  rintro x ⟨w, hw, rfl⟩
  simpa [lower] using (hplain w hw).1

section
variable {T : Trie} {t : Tst UInt8} {words : List Text} (hbuilt : Built T t words)
include hbuilt

/-- A text leads to a node exactly when some stored word begins with it. -/
theorem stemAt_ne_nil (p : Text) :
    stemAt t p ≠ .nil ↔ p ≠ [] ∧ ∃ x, Stored words x ∧ p <+: x := by
  cases p with
  | nil => simp [stemAt]
  | cons d rest =>
    unfold stemAt
    rw [Tst.stem_ne_nil hbuilt.live hbuilt.ordered]
    simp only [hbuilt.finds]
    constructor
    · rintro ⟨w, hw⟩
      exact ⟨List.cons_ne_nil _ _, _, hw, List.prefix_append (d :: rest) w⟩
    · rintro ⟨-, x, hx, w, rfl⟩
      exact ⟨w, hx⟩

theorem ends_stemAt {p : Text} (hne : p ≠ []) : (stemAt t p).ends = true ↔ Stored words p := by
  cases p with
  | nil => exact absurd rfl hne
  | cons d rest =>
    unfold stemAt
    rw [Tst.ends_stem, hbuilt.finds]

/-- The words below a text are what the stored words go on with after it. -/
theorem mem_words_stemAt {p : Text} (hne : p ≠ []) (v : Text) :
    v ∈ (stemAt t p).center.words ↔ v ≠ [] ∧ Stored words (p ++ v) := by
  cases p with
  | nil => exact absurd rfl hne
  | cons d rest =>
    have hord := Tst.ordered_center (Tst.ordered_stem hbuilt.ordered d rest)
    unfold stemAt
    cases v with
    | nil => simp [Tst.nil_notMem_words]
    | cons e v =>
      have hmore : t.find d (rest ++ e :: v) = (t.stem d rest).center.find e v :=
        Tst.find_append t d rest e v
      rw [Tst.mem_words hord, ← hmore, hbuilt.finds]
      simp

theorem rep_stemAt (p : Text) :
    (∃ parent, Rep T.heap parent (stemAt t p)) ∧ (stemAt t p).addrs.Sublist t.addrs := by
  cases p with
  | nil => exact ⟨⟨none, trivial⟩, List.nil_sublist _⟩
  | cons d rest => exact ⟨hbuilt.rep.stem d rest, Tst.addrs_stem_sublist t d rest⟩

theorem nodup_words_stemAt (p : Text) : (stemAt t p).center.words.Nodup := by
  cases p with
  | nil => exact List.nodup_nil
  | cons d rest =>
    exact Tst.nodup_words (Tst.ordered_center (Tst.ordered_stem hbuilt.ordered d rest))

/-- `Find` of a text from the root. A text with a byte from 128 on leads to no node, and no stored
word begins with it. -/
theorem find_stemAt (hascii : ∀ x, Stored words x → Ascii x) {fuel : Nat}
    (hfuel : (words.map List.length).sum < fuel) {q : Text} (hne : q ≠ []) (hzero : 0 ∉ q) :
    T.find fuel (c_str q) T.root = .ok ((stemAt t q).ends, (stemAt t q).head) := by
  have hsize := hbuilt.size.trans_lt hfuel
  rw [hbuilt.root]
  by_cases hq : Ascii q
  · cases q with
    | nil => exact absurd rfl hne
    | cons d rest =>
      unfold stemAt
      rw [Tst.ends_stem]
      exact find_refines hbuilt.rep hq hsize
  · have hnil : stemAt t q = .nil := by
      by_contra hstem
      obtain ⟨-, x, hx, hbegin⟩ := (stemAt_ne_nil hbuilt q).mp hstem
      exact hq fun c hc => hascii x hx c (hbegin.subset hc)
    rw [hnil]
    cases q with
    | nil => exact absurd rfl hne
    | cons d rest => exact find_high hbuilt.rep hzero (not_ascii hzero hq) hsize

/-- The loop over ever shorter texts stops at the nearest stem. -/
theorem stemLoop_nearest (hascii : ∀ x, Stored words x → Ascii x) {fuel : Nat}
    (hfuel : (words.map List.length).sum < fuel) {query : Text} (hne : query ≠ [])
    (hzero : 0 ∉ query) (n : Nat) :
    stemLoop T fuel T.root query n = .ok ((stemAt t (nearest t query n)).ends,
      (stemAt t (nearest t query n)).head, nearest t query n) := by
  induction n with
  | zero => rfl
  | succ n ih =>
    have hne' : query.take (n + 1) ≠ [] := by simpa using hne
    have hzero' : 0 ∉ query.take (n + 1) := fun h => hzero (List.take_subset _ _ h)
    unfold stemLoop nearest
    dsimp only
    rw [find_stemAt hbuilt hascii hfuel hne' hzero', bind_ok]
    cases hstem : stemAt t (query.take (n + 1)) with
    | nil => simpa [Tst.ends] using ih
    | node a key terminator l c r => cases terminator <;> simp [Tst.ends, hstem]

omit hbuilt in
/-- What the loop over the first `n` beginnings of the query stops at. -/
theorem nearest_spec (query : Text) {n : Nat} (hn : n ≤ query.length) :
    nearest t query n <+: query ∧ (nearest t query n ≠ [] → stemAt t (nearest t query n) ≠ .nil) ∧
      ∀ q, q <+: query → q.length ≤ n → stemAt t q ≠ .nil →
        q.length ≤ (nearest t query n).length := by
  induction n with
  | zero => exact ⟨List.nil_prefix, fun h => absurd rfl h, fun q _ hq _ => hq⟩
  | succ n ih =>
    obtain ⟨hbegin, hstem, hlongest⟩ := ih (by omega)
    unfold nearest
    split_ifs with hhead
    · refine ⟨hbegin, hstem, fun q hq hlen hne => hlongest q hq ?_ hne⟩
      by_contra hlong
      have htake : query.take (n + 1) = q := by
        rw [List.prefix_iff_eq_take.mp hq]
        congr 1
        omega
      rw [htake] at hhead
      exact hne (Tst.head_eq_none.mp hhead)
    · refine ⟨List.take_prefix _ _, fun _ h => hhead (Tst.head_eq_none.mpr h), fun q _ hlen _ => ?_⟩
      rw [List.length_take]
      omega

/-- The loop over all beginnings of the query stops at its nearest stem, if there is one. -/
theorem nearestStem_iff (query p : Text) :
    NearestStem words query p ↔ p ≠ [] ∧ p = nearest t query query.length := by
  obtain ⟨hbegin, hstem, hlongest⟩ := nearest_spec (t := t) query le_rfl
  constructor
  · rintro ⟨hne, hp, hstored, hmost⟩
    refine ⟨hne, ?_⟩
    have hle := hlongest p hp hp.length_le ((stemAt_ne_nil hbuilt p).mpr ⟨hne, hstored⟩)
    have hsome : nearest t query query.length ≠ [] := by
      rw [← List.length_pos_iff] at hne ⊢
      omega
    have hge := hmost _ hbegin ((stemAt_ne_nil hbuilt _).mp (hstem hsome)).2
    exact List.IsPrefix.eq_of_length (List.prefix_of_prefix_length_le hp hbegin hle) (by omega)
  · rintro ⟨hne, rfl⟩
    refine ⟨hne, hbegin, ((stemAt_ne_nil hbuilt _).mp (hstem hne)).2, fun q hq hstored => ?_⟩
    by_cases hempty : q = []
    · simp [hempty]
    · exact hlongest q hq hq.length_le ((stemAt_ne_nil hbuilt q).mpr ⟨hempty, hstored⟩)

/-! ## FuzzyFind -/

/-- The words that `FuzzyFind` commits below a stem. -/
def below (t : Tst UInt8) (columns : Text → Nat → Nat) (max_diff_ : Int) (query p : Text) :
    List Text :=
  (stemAt t p).center.visited (isOver columns p query max_diff_)

omit hbuilt in
theorem below_zero (columns : Text → Nat → Nat) (query p : Text) :
    below t columns 0 query p = (stemAt t p).center.words :=
  Tst.visited_eq_words _ fun _ => by simp [isOver]

/-- `Extrapolate` below the node of a stem. -/
theorem extrapolateLogged_below (columns : Text → Nat → Nat) (max_diff_ : Int) (query p : Text)
    {fuel : Nat} (hfuel : (words.map List.length).sum < fuel) {a : Nat}
    (ha : (stemAt t p).head = some a) {s : Extrapolation} (hs : s.accum = []) (log : List Write) :
    ∃ n, T.node a = .ok n ∧
      extrapolateLogged T columns a p query max_diff_ fuel n.c_ s log =
        .ok ((below t columns max_diff_ query p).foldl (addWrite columns p query) (s, log)) := by
  obtain ⟨⟨parent, hrep⟩, hsub⟩ := rep_stemAt hbuilt p
  unfold below
  generalize stemAt t p = stem at *
  cases stem with
  | nil => cases ha
  | node a' key terminator l c r =>
    cases ha
    obtain ⟨hheap, hsize, hnot⟩ := hbuilt.below_lt hrep hsub
    obtain ⟨⟨upper, hnode⟩, -, hbelow, -⟩ := hrep
    have hpath : ([] : Text).length + c.addrs.length ≤ T.heap.length := by
      simp only [List.length_nil]
      omega
    have hvisited := @extrapolateLogged_visited T columns a p query c (some a) [] max_diff_ fuel s
      hbelow (climbs_root T a) hnot (by omega) hpath hs log
    refine ⟨_, Trie.node_eq_ok.mpr hnode, ?_⟩
    simpa [Tst.center] using hvisited

/-- `FuzzyFind` commits the nearest stem, if it is stored, and then words below it. -/
theorem fuzzyFindLogged_nearest (hascii : ∀ x, Stored words x → Ascii x)
    (columns : Text → Nat → Nat) (max_diff_ : Int) {fuel : Nat}
    (hfuel : (words.map List.length).sum < fuel) {query : Text} (hne : query ≠ [])
    (hzero : 0 ∉ query) (start : Std.TreeMap Int Text) :
    ∃ m p, p = nearest t query query.length ∧
      fuzzyFindLogged T columns max_diff_ fuel query T.root start =
        .ok (m, (if (stemAt t p).ends then [((0 : Int), p)] else []) ++
          assignments (scoreOf columns p query) p [] (below t columns max_diff_ query p)) := by
  have hstem := stemLoop_nearest hbuilt hascii hfuel hne hzero query.length
  generalize nearest t query query.length = p at hstem
  unfold fuzzyFindLogged
  rw [hstem, bind_ok]
  dsimp only
  cases hhead : (stemAt t p).head with
  | none =>
    have hnil := Tst.head_eq_none.mp hhead
    refine ⟨start, p, rfl, ?_⟩
    simp [below, hnil, Tst.ends, Tst.center, Tst.visited, assignments]
  | some a =>
    -- the map that the traversal starts with, and the record so far
    have hfrom : ∀ (words' : Std.TreeMap Int Text) (log : List Write), ∃ m,
        (do
          let n ← T.node a
          let x ← extrapolateLogged T columns a p query max_diff_ fuel n.c_
            ⟨words', ∅, [], 0⟩ log
          .ok (x.1.words, x.2)) =
        .ok (m, log ++ assignments (scoreOf columns p query) p []
          (below t columns max_diff_ query p)) := by
      intro words' log
      obtain ⟨n, hnode, hrun⟩ := extrapolateLogged_below hbuilt columns max_diff_ query p hfuel
        hhead (s := ⟨words', ∅, [], 0⟩) rfl log
      have hcounted : Counted (scoreOf columns p query) [] ⟨words', ∅, [], 0⟩ := by
        intro x
        simp [tally]
      have hlog := foldl_addWrite_assignments columns p query
        (below t columns max_diff_ query p) (x := (⟨words', ∅, [], 0⟩, log)) hcounted
      rw [hnode, bind_ok, hrun, bind_ok, hlog]
      exact ⟨_, rfl⟩
    cases hends : (stemAt t p).ends with
    | false =>
      obtain ⟨m, hm⟩ := hfrom start []
      refine ⟨m, p, rfl, ?_⟩
      rw [hends]
      exact hm
    | true =>
      obtain ⟨m, hm⟩ := hfrom (start.insert 0 p) [((0 : Int), p)]
      refine ⟨m, p, rfl, ?_⟩
      rw [hends]
      exact hm

/-- The texts that are committed below the nearest stem when there is no threshold. -/
theorem committed_iff (columns : Text → Nat → Nat) (query : Text) {p : Text} (hne : p ≠ []) :
    let log := (if (stemAt t p).ends then [((0 : Int), p)] else []) ++
      assignments (scoreOf columns p query) p [] (below t columns 0 query p)
    (log.map Prod.snd).Nodup ∧ ∀ x, x ∈ log.map Prod.snd ↔ Stored words x ∧ p <+: x := by
  have htexts : ((if (stemAt t p).ends then [((0 : Int), p)] else []) ++
      assignments (scoreOf columns p query) p [] (below t columns 0 query p)).map Prod.snd =
      (if (stemAt t p).ends then [p] else []) ++ (stemAt t p).center.words.map (p ++ ·) := by
    rw [List.map_append, assignments_texts, below_zero]
    split_ifs <;> rfl
  have hbelow := mem_words_stemAt hbuilt hne
  have hends := ends_stemAt hbuilt hne
  intro log
  rw [htexts]
  constructor
  · apply List.Nodup.append
    · split_ifs <;> simp
    · exact (nodup_words_stemAt hbuilt p).map (List.append_right_injective p)
    · intro x hx hmore
      obtain ⟨v, hv, rfl⟩ := List.mem_map.mp hmore
      have hself : p ++ v = p := by
        split_ifs at hx
        · exact List.mem_singleton.mp hx
        · cases hx
      exact ((hbelow v).mp hv).1 (List.append_right_eq_self.mp hself)
  · intro x
    simp only [List.mem_append, List.mem_map, hbelow]
    constructor
    · rintro (hx | ⟨v, ⟨-, hstored⟩, rfl⟩)
      · split_ifs at hx with hstem
        · obtain rfl := List.mem_singleton.mp hx
          exact ⟨hends.mp hstem, List.prefix_rfl⟩
        · cases hx
      · exact ⟨hstored, List.prefix_append p v⟩
    · rintro ⟨hstored, v, rfl⟩
      by_cases hv : v = []
      · subst hv
        rw [List.append_nil] at hstored ⊢
        rw [if_pos (hends.mpr hstored)]
        exact Or.inl (List.mem_singleton.mpr rfl)
      · exact Or.inr ⟨v, ⟨hv, hstored⟩, rfl⟩

end

/-- With no threshold, `FuzzyFind` of any text into an empty map ends, and the map has stored words
only. -/
theorem fuzzyFind_stored {T : Trie} {t : Tst UInt8} {words : List Text} (hbuilt : Built T t words)
    (hascii : ∀ x, Stored words x → Ascii x) (columns : Text → Nat → Nat) {fuel : Nat}
    (hfuel : (words.map List.length).sum < fuel) {query : Text} (hzero : 0 ∉ query) :
    ∃ m, fuzzyFind T columns 0 fuel query T.root ∅ = .ok m ∧
      ∀ (k : Int) (x : Text), m[k]? = some x → Stored words x := by
  by_cases hne : query = []
  · subst hne
    exact ⟨∅, rfl, by simp⟩
  · obtain ⟨m, p, -, hrun⟩ :=
      fuzzyFindLogged_nearest hbuilt hascii columns 0 hfuel hne hzero ∅
    have herase := fuzzyFindLogged_erase T columns 0 fuel query T.root ∅
    rw [hrun] at herase
    refine ⟨m, herase.symm, fun k x hx => ?_⟩
    rw [fuzzyFindLogged_replay hrun] at hx
    rcases mem_of_getElem?_replay hx with hnone | hmem
    · simp at hnone
    · by_cases hempty : p = []
      · subst hempty
        cases hmem
      · exact ((committed_iff hbuilt columns query hempty).2 x).mp
          (List.mem_map_of_mem hmem) |>.1

/-- With no threshold, `FuzzyFind` commits the stored words that begin with the nearest stem of
the query, each once, and nothing when the query has no such stem. -/
theorem the_lookup_commits_the_words_of_the_nearest_stem (words : List Text)
    (hplain : ∀ w ∈ words, Plain w) (query : Text) (hne : query ≠ []) (hzero : 0 ∉ query)
    (columns : Text → Nat → Nat) (start : Std.TreeMap Int Text) (fuel : Nat)
    (hfuel : (words.map List.length).sum < fuel) :
    ∃ T m log, Trie.insertAll fuel words .empty = .ok T ∧
      fuzzyFind T columns 0 fuel query T.root start = .ok m ∧
      fuzzyFindLogged T columns 0 fuel query T.root start = .ok (m, log) ∧
      ((∀ p, ¬ NearestStem words query p) → log = []) ∧
      ∀ p, NearestStem words query p → (log.map Prod.snd).Nodup ∧
        ∀ x, x ∈ log.map Prod.snd ↔ Stored words x ∧ p <+: x := by
  obtain ⟨T, t, hinsert, hbuilt⟩ := insertAll_built (fun w hw => (hplain w hw).storable) hfuel
  obtain ⟨m, p, hp, hrun⟩ :=
    fuzzyFindLogged_nearest hbuilt (ascii_of_stored hplain) columns 0 hfuel hne hzero start
  have herase := fuzzyFindLogged_erase T columns 0 fuel query T.root start
  rw [hrun] at herase
  refine ⟨T, m, _, hinsert, herase.symm, hrun, fun hnone => ?_, fun q hq => ?_⟩
  · have hempty : p = [] := by
      by_contra hsome
      exact hnone p ((nearestStem_iff hbuilt query p).mpr ⟨hsome, hp⟩)
    subst hempty
    rfl
  · obtain ⟨hsome, heq⟩ := (nearestStem_iff hbuilt query q).mp hq
    obtain rfl : q = p := heq.trans hp.symm
    exact committed_iff hbuilt columns query hsome

theorem the_lookup_of_tear_commits_tea_and_teas :
    ∃ T m log, Trie.insertAll 20 [bytes "tea", bytes "Teas", bytes "ten"] .empty = .ok T ∧
      fuzzyFind T (fun _ _ => 0) 0 20 (bytes "tear") T.root ∅ = .ok m ∧
      fuzzyFindLogged T (fun _ _ => 0) 0 20 (bytes "tear") T.root ∅ = .ok (m, log) ∧
      bytes "teas" ∈ log.map Prod.snd := by
  have hplain : ∀ w ∈ [bytes "tea", bytes "Teas", bytes "ten"], Plain w := by decide +kernel
  obtain ⟨T, m, log, hinsert, hrun, hlogged, -, hall⟩ :=
    the_lookup_commits_the_words_of_the_nearest_stem _ hplain (bytes "tear") (by decide)
      (by decide) (fun _ _ => 0) ∅ 20 (by decide)
  have hstored : Stored [bytes "tea", bytes "Teas", bytes "ten"] (bytes "teas") :=
    ⟨bytes "Teas", by simp, by decide +kernel⟩
  have hstem : NearestStem [bytes "tea", bytes "Teas", bytes "ten"] (bytes "tear")
      (bytes "tea") := by decide +kernel
  exact ⟨T, m, log, hinsert, hrun, hlogged,
    ((hall _ hstem).2 _).mpr ⟨hstored, by decide⟩⟩

end anagram
