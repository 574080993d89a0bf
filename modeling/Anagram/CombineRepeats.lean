-- The combination search without `-d`. The usage text says that the flag
-- allows duplicate words, and the search compares the next word with the
-- whole phrase so far. That catches a repeat of the first word at the second
-- place, and no other.
import Anagram.CombineLaws

open outcome pruned_search

namespace anagram

/-! ## What the comparison with the phrase catches -/

variable {word : Text} {subset : StringMap} {flags : AnagramFlags} {master_count : OccupancyHash}
  {slots : Nat}

/-- A word without a space is not a phrase of several words. -/
theorem ne_phrase_snoc {ws : List Text} (hws : ws ≠ []) (w k : Text)
    (hk : (0x20 : UInt8) ∉ k) : (k == phrase (ws ++ [w])) = false := by
  rw [beq_eq_false_iff_ne, phrase_snoc hws, bytes_space]
  rintro rfl
  simp at hk

/-- Once the phrase has two words, no word is passed over. -/
theorem unskipped_of_two {ws : List Text} (hws : ws ≠ []) (w : Text) {ys : List Text}
    (hys : ∀ y ∈ ys, (0x20 : UInt8) ∉ y) :
    Unskipped (combineRules slots flags master_count) (ws ++ [w]) ys := by
  induction ys generalizing ws w with
  | nil => trivial
  | cons y ys ih =>
    refine ⟨?_, ih (by simp) y fun z hz => hys z (List.mem_cons_of_mem _ hz)⟩
    simp [combineRules, ne_phrase_snoc hws w y (hys y List.mem_cons_self)]

/-- Without `-d`, a sequence is passed over when its second word is its first one. -/
theorem unskipped_iff (hd : flags.allow_dupes = false) (k : Text) {ys : List Text}
    (hys : ∀ y ∈ ys, (0x20 : UInt8) ∉ y) :
    Unskipped (combineRules slots flags master_count) [k] ys ↔ ys.head? ≠ some k := by
  cases ys with
  | nil => simp [Unskipped]
  | cons y ys =>
    have htail : Unskipped (combineRules slots flags master_count) ([k] ++ [y]) ys :=
      unskipped_of_two (by simp) y fun z hz => hys z (List.mem_cons_of_mem _ hz)
    have hskip : (combineRules slots flags master_count).skip [k] y = false ↔ y ≠ k := by
      simp [combineRules, hd, phrase_singleton]
    rw [Unskipped, hskip, List.head?_cons, ne_eq, ne_eq, Option.some_inj]
    exact and_iff_left htail

/-! ## Repeated words -/

/-- The words that the search of a thread would take from place `p` of the keys, were no word
ever passed over: they follow the order of the map, and the comparisons of the code let the
phrase grow by each of them and find it complete at the last one. -/
def TakenFrom (word : Text) (subset : StringMap) (p : Nat) (ws : List Text) : Prop :=
  ∃ master_count, countOf word = .ok master_count ∧
    FoundFrom (combineRules 64 ⟨true, false, false⟩ master_count) subset.keys p ws

/-- No phrase emitted between `w` and `w'` has a word twice. -/
def NoWordTwice (flags : AnagramFlags) (w w' : World) : Prop :=
  ∀ p, emission flags p ∈ emissions flags w w' → (p.splitOn 0x20).Nodup

theorem foundFrom_iff_taken (hp : Partials word subset.keys) (hd : flags.allow_dupes = false)
    (hm : countOf word = .ok master_count) (p : Nat) (ws : List Text) :
    FoundFrom (combineRules 64 flags master_count) subset.keys p ws ↔
      TakenFrom word subset p ws ∧ ws[0]? ≠ ws[1]? := by
  have hfree : ∀ k rest ys, subset.keys.drop p = k :: rest → Drawn (k :: rest) ys →
      ∀ y ∈ ys, (0x20 : UInt8) ∉ y := by
    intro k rest ys hp' hdr y hy
    have hmem : y ∈ subset.keys.drop p := hp' ▸ hdr.mem y hy
    exact (hp y (List.mem_of_mem_drop hmem)).2.1
  have hsplit : ∀ k ys, Accepted (combineRules 64 flags master_count) [k] ys ↔
      Unskipped (combineRules 64 flags master_count) [k] ys ∧
        Accepted (combineRules 64 ⟨true, false, false⟩ master_count) [k] ys := by
    intro k ys
    have hverdict : (combineRules 64 ⟨true, false, false⟩ master_count).verdict =
        (combineRules 64 flags master_count).verdict := rfl
    exact accepted_iff_unskipped hverdict (fun _ _ => rfl) [k] ys
  constructor
  · rintro ⟨k, rest, ys, hk, rfl, hdr, hacc⟩
    obtain ⟨hun, hacc⟩ := (hsplit k ys).mp hacc
    have hne := (unskipped_iff hd k (hfree k rest ys hk hdr)).mp hun
    refine ⟨⟨_, hm, k, rest, ys, hk, rfl, hdr, hacc⟩, ?_⟩
    simpa [List.head?_eq_getElem?, eq_comm] using hne
  · rintro ⟨⟨_, hm', k, rest, ys, hk, rfl, hdr, hacc⟩, hne⟩
    obtain rfl := Except.ok.inj (hm.symm.trans hm')
    refine ⟨k, rest, ys, hk, rfl, hdr, (hsplit k ys).mpr ⟨?_, hacc⟩⟩
    refine (unskipped_iff hd k (hfree k rest ys hk hdr)).mpr ?_
    simpa [List.head?_eq_getElem?, eq_comm] using hne

/-- What a run of one thread emits without `-d`. -/
theorem mem_emissions_iff (hp : Partials word subset.keys) (hd : flags.allow_dupes = false)
    {fuel cpu_tot : Nat} {thread_index : Int} {w w' : World}
    (hrun : combineSubsetsFast fuel cpu_tot flags word subset thread_index w = .ok w')
    (p : Text) :
    emission flags p ∈ emissions flags w w' ↔ ∃ j ws, p = phrase ws ∧ ws[0]? ≠ ws[1]? ∧
      TakenFrom word subset (thread_index.toNat + j * cpu_tot) ws := by
  rw [combineSubsetsFast, combineWith_eq, threadSearch] at hrun
  cases hm : countOf word with
  | error e =>
    rw [hm] at hrun
    cases hrun
  | ok master_count =>
    rw [hm, bind_ok] at hrun
    obtain ⟨L, hL, rfl⟩ := map_eq_ok.mp hrun
    have hmem : ∀ ws, ws ∈ L ↔ ∃ j, TakenFrom word subset (thread_index.toNat + j * cpu_tot) ws ∧
        ws[0]? ≠ ws[1]? := by
      intro ws
      simp only [mem_sweep _ _ hL ws, foundFrom_drop, foundFrom_iff_taken hp hd hm]
    rw [emissions_emitAll, List.mem_map]
    constructor
    · rintro ⟨ws, hws, he⟩
      obtain ⟨j, htaken, hne⟩ := (hmem ws).mp hws
      exact ⟨j, ws, (emission_injective flags he).symm, hne, htaken⟩
    · rintro ⟨j, ws, rfl, hne, htaken⟩
      exact ⟨ws, (hmem ws).mpr ⟨j, htaken, hne⟩, rfl⟩

/-- Within the bounds, what is taken are the combinations, each from the place of its first
word. -/
theorem takenFrom_iff_combination (hb : InBounds word) (hp : Partials word subset.keys) (p : Nat)
    (ws : List Text) :
    TakenFrom word subset p ws ↔
      Combination word subset ws ∧ subset.keys[p]? = ws.head? := by
  obtain ⟨master_count, hm, hholds⟩ := countOf_holds hb.ascii (hb.fits le_rfl)
  have hall : (∃ q, FoundFrom (combineRules 64 ⟨true, false, false⟩ master_count) subset.keys q
      ws) ↔ Combination word subset ws := exists_foundFrom_combination hb hp rfl hholds ws
  have hplace := @foundFrom_iff_place _ _ (combineRules 64 ⟨true, false, false⟩ master_count)
    subset.keys ws Std.TreeMap.nodup_keys p
  rw [← hall, ← hplace]
  constructor
  · rintro ⟨_, hm', hf⟩
    obtain rfl := Except.ok.inj (hm.symm.trans hm')
    exact hf
  · exact fun hf => ⟨master_count, hm, hf⟩

/-- Without `-d`, a run of one thread emits no word twice exactly when its places of the subset
start no phrase that repeats a word after two different first words. Within the bounds every
run ends, and the phrases in question are the combinations. -/
theorem no_word_twice_iff_no_repeat_after_two_different_words (hp : Partials word subset.keys)
    (hd : flags.allow_dupes = false) (fuel cpu_tot : Nat) (thread_index : Int) (w : World) :
    (∀ w', combineSubsetsFast fuel cpu_tot flags word subset thread_index w = .ok w' →
      (NoWordTwice flags w w' ↔
        ∀ j ws, TakenFrom word subset (thread_index.toNat + j * cpu_tot) ws →
          ws[0]? ≠ ws[1]? → ws.Nodup)) ∧
    (InBounds word → 1 ≤ cpu_tot → subset.keys.length + 67 ≤ fuel →
      (∃ w', combineSubsetsFast fuel cpu_tot flags word subset thread_index w = .ok w') ∧
      ∀ p ws, TakenFrom word subset p ws ↔
        Combination word subset ws ∧ subset.keys[p]? = ws.head?) := by
  constructor
  · intro w' hrun
    have hsplit : ∀ p ws, TakenFrom word subset p ws → (phrase ws).splitOn 0x20 = ws := by
      rintro p ws ⟨_, _, hf⟩
      obtain ⟨k, ys, rfl, hdr, _⟩ := exists_foundFrom.mp ⟨p, hf⟩
      exact splitOn_phrase (by simp) fun y hy => (hp y (hdr.mem y hy)).2.1
    constructor
    · intro h j ws htaken hne
      have hnodup := h _ ((mem_emissions_iff hp hd hrun _).mpr ⟨j, ws, rfl, hne, htaken⟩)
      rwa [hsplit _ ws htaken] at hnodup
    · intro h p hmem
      obtain ⟨j, ws, rfl, hne, htaken⟩ := (mem_emissions_iff hp hd hrun p).mp hmem
      rw [hsplit _ ws htaken]
      exact h j ws htaken hne
  · intro hb hcpu hfuel
    refine ⟨?_, takenFrom_iff_combination hb hp⟩
    obtain ⟨L, hL⟩ := threadSearch_in_bounds flags hb hp le_rfl hcpu hfuel thread_index
    exact ⟨emitAll flags L w, by rw [combineSubsetsFast, combineWith_eq, hL]; rfl⟩

theorem a_run_for_abb_keeps_to_the_rule :
    ∃ w', combineSubsetsFast 70 1 ⟨false, false, false⟩ (bytes "abb")
        (subsetOf [bytes "a", bytes "b"]) 0 .start = .ok w' ∧
      (NoWordTwice ⟨false, false, false⟩ .start w' ↔
        ∀ j ws, TakenFrom (bytes "abb") (subsetOf [bytes "a", bytes "b"]) (0 + j * 1) ws →
          ws[0]? ≠ ws[1]? → ws.Nodup) := by
  have hrule := @no_word_twice_iff_no_repeat_after_two_different_words (bytes "abb")
    (subsetOf [bytes "a", bytes "b"]) ⟨false, false, false⟩ (by decide) rfl 70 1 0 .start
  have hb : InBounds (bytes "abb") := .of_length_le (by decide +kernel) (by decide)
  obtain ⟨w', hw'⟩ := (hrule.2 hb le_rfl (by decide)).1
  exact ⟨w', hw', hrule.1 w' hw'⟩

/-- The search for `abb` over `a` and `b` emits `a b b`. -/
theorem a_b_b_has_a_word_twice :
    Partials (bytes "abb") (subsetOf [bytes "a", bytes "b"]).keys ∧
    ∃ w', combineSubsetsFast 70 1 ⟨false, false, false⟩ (bytes "abb")
        (subsetOf [bytes "a", bytes "b"]) 0 .start = .ok w' ∧
      ¬ NoWordTwice ⟨false, false, false⟩ .start w' := by
  refine ⟨by decide, ?_⟩
  have heffects : (combineSubsetsFast 70 1 ⟨false, false, false⟩ (bytes "abb")
      (subsetOf [bytes "a", bytes "b"]) 0 .start).map (·.effects) =
      .ok [.write (bytes "a b b")] := by decide
  obtain ⟨w', hw', he⟩ := map_eq_ok.mp heffects
  refine ⟨w', hw', fun h => ?_⟩
  have hmem : emission ⟨false, false, false⟩ (bytes "a b b") ∈
      emissions ⟨false, false, false⟩ .start w' := by
    rw [emissions, he]
    decide
  exact absurd (h _ hmem) (by decide)

end anagram
