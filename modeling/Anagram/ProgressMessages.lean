-- The progress messages of the combination search without -o (main.cc). The
-- throttle counts the phrases of all threads, so one phrase in a hundred is followed
-- by a message, and the number in it is that of the anagrams found until then.
import Anagram.ThreadFinds

open outcome

namespace anagram

/-! ## The effects of some phrases -/

/-- What phrases write and push when the map has `size` anagrams and the throttle is at `r`. -/
def reported : Nat → Nat → List Text → List Effect
  | _, _, [] => []
  | size, r, p :: ps =>
    .write p ::
      if r = 1 then .push (foundMessage (size + 1)) :: reported (size + 1) 100 ps
      else reported (size + 1) (r - 1) ps

/-- The phrase of each number that is the one of the throttle, modulo 100, has a message. -/
def withMessages (size r : Nat) (numbered : List (Text × Nat)) : List Effect :=
  numbered.flatMap fun x =>
    .write x.1 :: if x.2 % 100 = r % 100 then [.push (foundMessage (size + x.2))] else []

theorem reported_eq {size r n : Nat} (hpos : 1 ≤ r) (hle : r ≤ 100) (ps : List Text) :
    reported (size + n) r ps = withMessages size (n + r) (ps.zipIdx (n + 1)) := by
  unfold withMessages
  induction ps generalizing r n with
  | nil => rfl
  | cons p ps ih =>
    rw [List.zipIdx_cons, List.flatMap_cons, reported, Nat.add_assoc]
    by_cases hone : r = 1
    · subst hone
      rw [if_pos rfl, if_pos rfl, ih (by decide) le_rfl]
      have hmod : ∀ k, k % 100 = (n + 1 + 100) % 100 ↔ k % 100 = (n + 1) % 100 := by omega
      simp only [hmod, List.cons_append, List.nil_append]
    · have hother : ¬ (n + 1) % 100 = (n + r) % 100 := by omega
      rw [if_neg hone, if_neg hother, ih (by omega) (by omega)]
      have hsum : n + 1 + (r - 1) = n + r := by omega
      rw [hsum, List.singleton_append]

/-- Without -o, a phrase is written, and the one that brings the throttle to 0 has a message. -/
theorem emit_map {flags : AnagramFlags} (hmap : flags.output_directly = false) (p : Text)
    {w : World} {r : Nat} (hr : w.output_queue_throttle = r) (hpos : 1 ≤ r) :
    emit flags p w =
      if r = 1 then ({ w.write p with output_queue_throttle := (100 : Nat) } : World).push
        (foundMessage (w.write p).anagrams.size)
      else { w.write p with output_queue_throttle := (r - 1 : Nat) } := by
  have hthrottle : (w.write p).output_queue_throttle = (r : Int) := hr
  unfold emit
  rw [hmap, if_neg Bool.false_ne_true]
  dsimp only
  rw [hthrottle]
  by_cases hone : r = 1
  · rw [if_pos (by omega), if_pos hone]
    rfl
  · rw [if_neg (by omega), if_neg hone, Nat.cast_sub hpos]
    rfl

/-- Phrases that are not in the map yet make it grow one by one, and keep the throttle between 1
and 100. -/
theorem emitAll_reported {flags : AnagramFlags} (hmap : flags.output_directly = false)
    (L : List (List Text)) {w : World} {r : Nat} (hr : w.output_queue_throttle = r)
    (hpos : 1 ≤ r) (hle : r ≤ 100) (hnodup : (L.map phrase).Nodup)
    (hfresh : ∀ ws ∈ L, phrase ws ∉ w.anagrams) :
    (emitAll flags L w).effects = w.effects ++ reported w.anagrams.size r (L.map phrase) ∧
      (emitAll flags L w).anagrams.size = w.anagrams.size + L.length ∧
      ∃ r' : Nat, 1 ≤ r' ∧ r' ≤ 100 ∧ (emitAll flags L w).output_queue_throttle = r' := by
  induction L generalizing w r with
  | nil => exact ⟨by simp [reported], rfl, r, hpos, hle, hr⟩
  | cons ws L ih =>
    have hnew := hfresh ws List.mem_cons_self
    rw [List.map_cons, List.nodup_cons] at hnodup
    have hsize : (w.write (phrase ws)).anagrams.size = w.anagrams.size + 1 := by
      unfold World.write
      rw [Std.TreeMap.size_insert, if_neg (mt Std.TreeMap.mem_iff_contains.mpr hnew)]
    have hrest : ∀ vs ∈ L, phrase vs ∉ (w.write (phrase ws)).anagrams := by
      intro vs hvs hmem
      unfold World.write at hmem
      rcases Std.TreeMap.mem_insert.mp hmem with heq | hold
      · rw [Std.LawfulEqCmp.compare_eq_iff_eq] at heq
        exact hnodup.1 (heq ▸ List.mem_map_of_mem hvs)
      · exact hfresh vs (List.mem_cons_of_mem _ hvs) hold
    have hone : emitAll flags (ws :: L) w = emitAll flags L (emit flags (phrase ws) w) := rfl
    rw [hone, emit_map hmap _ hr hpos, List.length_cons, List.map_cons, reported]
    by_cases hlast : r = 1
    · rw [if_pos hlast, if_pos hlast]
      obtain ⟨heffects, hgrown, hkept⟩ := ih (r := 100)
        (w := ({ w.write (phrase ws) with output_queue_throttle := (100 : Nat) } : World).push
          (foundMessage (w.write (phrase ws)).anagrams.size)) rfl (by decide) le_rfl hnodup.2 hrest
      refine ⟨?_, ?_, hkept⟩
      · rw [heffects]
        simp only [World.push, hsize]
        simp [World.write]
      · rw [hgrown]
        simp only [World.push, hsize]
        omega
    · rw [if_neg hlast, if_neg hlast]
      obtain ⟨heffects, hgrown, hkept⟩ := ih (w := { w.write (phrase ws) with
        output_queue_throttle := (r - 1 : Nat) }) rfl (by omega) (by omega) hnodup.2 hrest
      refine ⟨?_, ?_, hkept⟩
      · rw [heffects]
        simp only [hsize]
        simp [World.write]
      · rw [hgrown]
        simp only [hsize]
        omega

/-! ## The messages of a search -/

/-- Without -o, the threads of a job, one after another in any order, write each phrase once. The
phrases whose number is that of the throttle, modulo 100, are followed by a message, which says
how many anagrams the map has then. No other text is pushed. -/
theorem one_phrase_in_a_hundred_has_a_message {word : Text} (hb : InBounds word)
    {subset : StringMap} (hp : Partials word subset.keys) (flags : AnagramFlags)
    (hmap : flags.output_directly = false) {cpu_tot fuel : Nat} (hcpu : 1 ≤ cpu_tot)
    (hfuel : subset.keys.length + 67 ≤ fuel) {order : List Nat}
    (horder : order.Perm (List.range cpu_tot)) (w : World) (hwords : ∀ x ∈ w.anagrams, 0x20 ∉ x)
    {r : Nat} (hr : w.output_queue_throttle = r) (hpos : 1 ≤ r) (hle : r ≤ 100) :
    ∃ (w' : World) (ps : List Text),
      runThreads fuel cpu_tot flags word subset order w = .ok w' ∧
      w'.effects = w.effects ++ withMessages w.anagrams.size r (ps.zipIdx 1) ∧
      ps.Nodup ∧
      (∀ p, p ∈ ps ↔ ∃ ws, Combination word subset ws ∧ Emitted flags ws ∧ p = phrase ws) ∧
      w'.anagrams.size = w.anagrams.size + ps.length ∧
      1 ≤ w'.output_queue_throttle ∧ w'.output_queue_throttle ≤ 100 := by
  obtain ⟨L, hL, hnodup, hmem, -⟩ := threads_find hb hp flags hcpu hfuel
  have hperm : (order.flatMap L).Perm ((List.range cpu_tot).flatMap L) := horder.flatMap_right L
  have hfound : ∀ ws, ws ∈ order.flatMap L ↔ Combination word subset ws ∧ Emitted flags ws :=
    fun ws => hperm.mem_iff.trans (hmem ws)
  have hfree : ∀ k ∈ subset, (0x20 : UInt8) ∉ k := fun k hk =>
    (hp k (Std.TreeMap.mem_keys.mpr hk)).2.1
  have hphrases : ((order.flatMap L).map phrase).Nodup :=
    nodup_phrases hfree (hperm.nodup_iff.mpr hnodup) fun ws hws => ((hfound ws).mp hws).1
  have hfresh : ∀ ws ∈ order.flatMap L, phrase ws ∉ w.anagrams := fun ws hws hin =>
    hwords _ hin ((hfound ws).mp hws).1.space_mem
  obtain ⟨heffects, hsize, r', hpos', hle', hr'⟩ :=
    emitAll_reported hmap (order.flatMap L) hr hpos hle hphrases hfresh
  have hclosed := @reported_eq w.anagrams.size r 0 hpos hle ((order.flatMap L).map phrase)
  rw [Nat.add_zero, Nat.zero_add, Nat.zero_add] at hclosed
  refine ⟨_, (order.flatMap L).map phrase, runThreads_eq hL order w, ?_, hphrases, fun p => ?_, ?_,
    ?_, ?_⟩
  · rw [heffects, hclosed]
  · simp only [List.mem_map, hfound, and_assoc, eq_comm]
  · rw [hsize, List.length_map]
  · omega
  · omega

theorem the_threads_of_ab_send_a_message_at_once :
    ∃ (w' : World) (ps : List Text), runThreads 70 2 ⟨true, false, false⟩ (bytes "ab")
        (subsetOf [bytes "a", bytes "b"]) [1, 0] ⟨∅, 1, []⟩ = .ok w' ∧
      w'.effects = withMessages 0 1 (ps.zipIdx 1) ∧ bytes "a b" ∈ ps := by
  have hpartials : Partials (bytes "ab") (subsetOf [bytes "a", bytes "b"]).keys := by decide
  have hfuel : (subsetOf [bytes "a", bytes "b"]).keys.length + 67 ≤ 70 := by decide
  have horder : [1, 0].Perm (List.range 2) := by decide
  obtain ⟨w', ps, hrun, heffects, -, hmem, -⟩ := one_phrase_in_a_hundred_has_a_message
    (.of_length_le (by decide +kernel) (by decide)) hpartials ⟨true, false, false⟩ rfl
    (by decide) hfuel horder ⟨∅, 1, []⟩ (by simp) (r := 1) rfl le_rfl (by decide)
  refine ⟨w', ps, hrun, by simpa using heffects, (hmem _).mpr ?_⟩
  exact ⟨[bytes "a", bytes "b"], ⟨by decide, by decide, by decide, by decide⟩, Or.inl rfl,
    by decide⟩

end anagram
