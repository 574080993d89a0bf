-- What the searches of the threads find, with -d or without it (main.cc). Within
-- the bounds of the tables, they share the combinations of two or more words that
-- have the letters of the phrase. Without -d, those whose second word is the
-- first one are passed over.
import Anagram.CombineRepeats

open outcome pruned_search

namespace anagram

/-- What is emitted of the combinations: all with -d, and else those whose second word is not the
first one. -/
def Emitted (flags : AnagramFlags) (ws : List Text) : Prop :=
  flags.allow_dupes = true ∨ ws[0]? ≠ ws[1]?

instance (flags : AnagramFlags) (ws : List Text) : Decidable (Emitted flags ws) :=
  inferInstanceAs (Decidable (_ ∨ _))

variable {word : Text} {subset : StringMap} {flags : AnagramFlags} {master_count : OccupancyHash}

/-- With or without -d, the searches from all starts find the combinations to emit. -/
theorem exists_foundFrom_emitted (hb : InBounds word) (hp : Partials word subset.keys)
    (hm : countOf word = .ok master_count) (hholds : master_count.Holds (letters word))
    (ws : List Text) :
    (∃ p, FoundFrom (combineRules 64 flags master_count) subset.keys p ws) ↔
      Combination word subset ws ∧ Emitted flags ws := by
  unfold Emitted
  cases hd : flags.allow_dupes with
  | true =>
    rw [exists_foundFrom_combination hb hp hd hholds]
    simp
  | false =>
    simp only [Bool.false_eq_true, false_or, foundFrom_iff_taken hp hd hm, exists_and_right]
    have hall : (∃ p, TakenFrom word subset p ws) ↔ Combination word subset ws := by
      constructor
      · rintro ⟨p, htaken⟩
        exact ((takenFrom_iff_combination hb hp p ws).mp htaken).1
      · intro hcomb
        have hsearch : (∃ p, FoundFrom (combineRules 64 ⟨true, false, false⟩ master_count)
            subset.keys p ws) ↔ Combination word subset ws :=
          exists_foundFrom_combination hb hp rfl hholds ws
        obtain ⟨p, hfound⟩ := hsearch.mpr hcomb
        exact ⟨p, master_count, hm, hfound⟩
    rw [hall]

/-- The searches end, no thread finds anything twice, and no two threads find the same: together
they find the combinations to emit. -/
theorem threads_find (hb : InBounds word) (hp : Partials word subset.keys) (flags : AnagramFlags)
    {cpu_tot fuel : Nat} (hcpu : 1 ≤ cpu_tot) (hfuel : subset.keys.length + 67 ≤ fuel) :
    ∃ L : Nat → List (List Text),
      (∀ t : Nat, threadSearch 64 fuel cpu_tot flags word subset.keys t = .ok (L t)) ∧
      ((List.range cpu_tot).flatMap L).Nodup ∧
      (∀ ws, ws ∈ (List.range cpu_tot).flatMap L ↔
        Combination word subset ws ∧ Emitted flags ws) ∧
      ∀ t, (L t).Nodup ∧ ∀ ws ∈ L t, Combination word subset ws := by
  obtain ⟨master_count, hm, hholds⟩ := countOf_holds hb.ascii (hb.fits le_rfl)
  choose L hL using fun t : Nat => threadSearch_in_bounds flags hb hp le_rfl hcpu hfuel (t : Int)
  have hsweep : ∀ t : Nat, sweep (combineRules 64 flags master_count) Fault.out_of_fuel
      (fun k => !flags.allow_dupes && k == word) fuel cpu_tot fuel (subset.keys.drop t) =
      .ok (L t) := by
    intro t
    have h := hL t
    rw [threadSearch, hm, bind_ok] at h
    exact h
  have hkeys : subset.keys.Nodup := Std.TreeMap.nodup_keys
  have hone : ∀ t, (L t).Nodup := fun t =>
    nodup_sweep hcpu _ _ (hkeys.sublist (List.drop_sublist _ _)) (hsweep t)
  obtain ⟨hnodup, hmem⟩ := dealt_sweeps hkeys hcpu (List.Perm.refl _)
    (fun t zs => mem_sweep _ _ (hsweep t) zs) hone
  refine ⟨L, hL, hnodup, fun ws => ?_, fun t => ⟨hone t, fun ws hws => ?_⟩⟩
  · rw [hmem, exists_foundFrom_emitted hb hp hm hholds]
  · obtain ⟨j, hfound⟩ := (mem_sweep _ _ (hsweep t) ws).mp hws
    rw [foundFrom_drop] at hfound
    exact ((exists_foundFrom_emitted hb hp hm hholds ws).mp ⟨_, hfound⟩).1

/-- A combination has at least two words, and none of them has a space. -/
theorem Combination.words (h : ∀ k ∈ subset, (0x20 : UInt8) ∉ k) {ws : List Text}
    (hws : Combination word subset ws) : ws ≠ [] ∧ ∀ w ∈ ws, (0x20 : UInt8) ∉ w := by
  refine ⟨?_, fun w hw => h w (hws.mem w hw)⟩
  rintro rfl
  exact absurd hws.two_le (by decide)

/-- Different combinations make different phrases. -/
theorem nodup_phrases (h : ∀ k ∈ subset, (0x20 : UInt8) ∉ k) {L : List (List Text)}
    (hnodup : L.Nodup) (hL : ∀ ws ∈ L, Combination word subset ws) : (L.map phrase).Nodup := by
  apply hnodup.map_on
  intro ws hws vs hvs heq
  obtain ⟨hne, hfree⟩ := (hL ws hws).words h
  obtain ⟨hne', hfree'⟩ := (hL vs hvs).words h
  exact phrase_inj hne hne' hfree hfree' heq

/-- The phrase of a combination is not one word. -/
theorem Combination.space_mem {ws : List Text} (hws : Combination word subset ws) :
    (0x20 : UInt8) ∈ phrase ws := by
  rcases List.eq_nil_or_concat ws with rfl | ⟨ws', w, rfl⟩
  · exact absurd hws.two_le (by decide)
  · have hne : ws' ≠ [] := by
      rintro rfl
      exact absurd hws.two_le (by simp)
    rw [List.concat_eq_append, phrase_snoc hne, bytes_space]
    simp

end anagram
