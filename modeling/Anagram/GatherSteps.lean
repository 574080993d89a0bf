-- The steps of the gather block are those of its candidates. Each candidate that
-- the lookup of a letter brings is counted and compared as with a hash of its
-- own, and the comparison decides which of them are in the subset.
import Anagram.HashStepLaws
import Anagram.ExcludeLaws

open outcome traced

namespace anagram

namespace OccupancyHash

theorem isSubset_tidy {a : OccupancyHash} (ta : Tidy a) (b : OccupancyHash) :
    ∃ r, a.isSubset b = .ok r := by
  have hloop : ∀ k ≤ a.index_ptr, ∃ r, isSubsetLoop a b k = .ok r := by
    intro k hk
    induction k with
    | zero => exact ⟨true, rfl⟩
    | succ k ih =>
      unfold isSubsetLoop
      rw [ta.occupied hk, bind_ok]
      split_ifs
      · exact ⟨false, rfl⟩
      · exact ih (by omega)
  exact hloop _ le_rfl

end OccupancyHash

/-! ## One candidate -/

/-- The candidates of the gather block: what the lookups of the characters of the phrase commit,
other than excluded words. -/
def Considered (T : Trie) (columns : Text → Nat → Nat) (fuel : Nat) (excludeset : StringMap)
    (cs : List UInt8) (x : Text) : Prop :=
  x ∉ excludeset ∧ ∃ c ∈ cs, ∃ m, fuzzyFind T columns 0 fuel (cString [c]) T.root ∅ = .ok m ∧
    ∃ k : Int, m[k]? = some x

/-- The candidates that the lookups of the characters bring, where a character that was completed
before brings none. -/
def Brought (t : Trie) (columns : Text → Nat → Nat) (max_diff_ : Int) (fuel : Nat)
    (excludeset : StringMap) (chars_completed : UInt8 → Bool) (cs : List UInt8) (x : Text) : Prop :=
  x ∉ excludeset ∧ ∃ c ∈ cs, chars_completed c = false ∧
    ∃ m, fuzzyFind t columns max_diff_ fuel (cString [c]) t.root ∅ = .ok m ∧
      ∃ k : Int, m[k]? = some x

/-- The steps for a candidate, with a hash of its own. -/
def candidateInSteps (master_count : OccupancyHash) (phrase x : Text) : InSteps Unit := do
  let b ← countInSteps .new x
  let _ ← compareInSteps b master_count x phrase
  pure ()

section
variable {flags : AnagramFlags} {excludeset : StringMap} {master_count : OccupancyHash}
  {phrase : Text}

theorem considerInSteps_excluded {x : Text} (hx : x ∈ excludeset) (s : GatherState) :
    considerInSteps flags excludeset master_count phrase s x = pure s := by
  unfold considerInSteps
  rw [if_pos (Std.TreeMap.mem_iff_contains.mp hx)]

theorem considerInSteps_steps {x : Text} (hx : x ∉ excludeset) (hbytes : cString x = x)
    {s : GatherState} (htidy : s.candidate_count.Tidy) :
    (considerInSteps flags excludeset master_count phrase s x).steps =
      (candidateInSteps master_count phrase x).steps := by
  unfold considerInSteps candidateInSteps
  rw [if_neg fun h => hx (Std.TreeMap.mem_iff_contains.mpr h)]
  dsimp only
  rw [hbytes, OccupancyHash.clear_tidy htidy, quiet_ok_bind]
  unfold countInSteps compareInSteps
  cases hb : OccupancyHash.new.getCharCountMap x with
  | error e => rfl
  | ok b =>
    simp only [note_ok_bind]
    cases hr : b.compare master_count with
    | error e => rfl
    | ok r =>
      simp only [note_ok_bind]
      split_ifs
      · rfl
      · cases hsub : b.isSubset master_count with
        | error e => rfl
        | ok sub => cases sub <;> rfl

/-- A candidate leaves a hash that can be cleared, and adds nothing else to the subset. -/
theorem considerInSteps_keeps {x : Text} (hbytes : cString x = x) {s s' : GatherState}
    (htidy : s.candidate_count.Tidy)
    (h : (considerInSteps flags excludeset master_count phrase s x).result = .ok s') :
    s'.candidate_count.Tidy ∧ ∀ y ∈ s'.subset, y ∈ s.subset ∨ (x ∉ excludeset ∧ y = x) := by
  by_cases hx : x ∈ excludeset
  · rw [considerInSteps_excluded hx] at h
    cases h
    exact ⟨htidy, fun y hy => Or.inl hy⟩
  · rw [result_considerInSteps] at h
    obtain ⟨htidy', -, -, hsubset⟩ := consider_mem htidy hx h
    rw [hbytes] at hsubset
    exact ⟨htidy', fun y hy => ((hsubset y).mp hy).imp_right fun hyx => ⟨hx, hyx.1⟩⟩

/-- A candidate whose count succeeds is sorted by the comparisons of the code. -/
theorem considerInSteps_ok {x : Text} (hx : x ∉ excludeset) (hbytes : cString x = x)
    (hcompare : ∀ b : OccupancyHash, b.Tidy → ∃ r, b.compare master_count = .ok r)
    (hcount : ∃ b, countOf x = .ok b) {s : GatherState} (htidy : s.candidate_count.Tidy) :
    ∃ s', (considerInSteps flags excludeset master_count phrase s x).result = .ok s' ∧
      s'.candidate_count.Tidy ∧ s'.chars_completed = s.chars_completed ∧
      ∀ y, y ∈ s'.subset ↔ y ∈ s.subset ∨ (y = x ∧ Takes master_count x) := by
  have hends : ∃ s', consider flags excludeset master_count s x = .ok s' := by
    obtain ⟨b, hb⟩ := hcount
    obtain ⟨r, hr⟩ := hcompare b (tidy_countOf hb)
    rw [consider_ok_iff hx htidy, hbytes]
    exact ⟨b, r, hb, hr, fun _ => OccupancyHash.isSubset_tidy (tidy_countOf hb) master_count⟩
  obtain ⟨s', hs'⟩ := hends
  obtain ⟨htidy', hchars, -, hsubset⟩ := consider_mem htidy hx hs'
  rw [hbytes] at hsubset
  rw [result_considerInSteps]
  exact ⟨s', hs', htidy', hchars, hsubset⟩

end

/-! ## All candidates -/

section
variable {t : Trie} {columns : Text → Nat → Nat} {max_diff_ : Int} {fuel : Nat}
  {excludeset : StringMap} {chars_completed : UInt8 → Bool} {cs : List UInt8} {c : UInt8}

/-- The gather block of a job starts with nothing completed. -/
theorem considered_iff_brought (x : Text) : Considered t columns fuel excludeset cs x ↔
    Brought t columns 0 fuel excludeset (fun _ => false) cs x := by
  simp only [Considered, Brought, true_and]

/-- A character that was completed brings nothing new. -/
theorem brought_completed (h : chars_completed c = true ∨ c ∈ cs) (x : Text) :
    Brought t columns max_diff_ fuel excludeset chars_completed (cs ++ [c]) x ↔
      Brought t columns max_diff_ fuel excludeset chars_completed cs x := by
  unfold Brought
  refine and_congr_right fun _ => ⟨?_, ?_⟩
  · rintro ⟨d, hd, hnew, hfound⟩
    rcases List.mem_append.mp hd with hd | hd
    · exact ⟨d, hd, hnew, hfound⟩
    · obtain rfl := List.mem_singleton.mp hd
      rcases h with h | h
      · rw [h] at hnew
        cases hnew
      · exact ⟨d, h, hnew, hfound⟩
  · rintro ⟨d, hd, hrest⟩
    exact ⟨d, List.mem_append_left _ hd, hrest⟩

/-- Another one brings what its lookup commits. -/
theorem brought_snoc (hnew : chars_completed c = false) {m : Std.TreeMap Int Text}
    (hm : fuzzyFind t columns max_diff_ fuel (cString [c]) t.root ∅ = .ok m) (x : Text) :
    Brought t columns max_diff_ fuel excludeset chars_completed (cs ++ [c]) x ↔
      Brought t columns max_diff_ fuel excludeset chars_completed cs x ∨
        (x ∉ excludeset ∧ x ∈ m.toList.map Prod.snd) := by
  constructor
  · rintro ⟨hout, d, hd, hnew', m', hm', k, hk⟩
    rcases List.mem_append.mp hd with hd | hd
    · exact Or.inl ⟨hout, d, hd, hnew', m', hm', k, hk⟩
    · rw [List.mem_singleton.mp hd] at hm'
      obtain rfl := Except.ok.inj (hm.symm.trans hm')
      exact Or.inr ⟨hout, mem_found.mpr ⟨k, hk⟩⟩
  · rintro (⟨hout, d, hd, hrest⟩ | ⟨hout, hmem⟩)
    · exact ⟨hout, d, List.mem_append_left _ hd, hrest⟩
    · exact ⟨hout, c, by simp, hnew, m, hm, mem_found.mp hmem⟩

end

/-- The candidates taken so far: their steps have had the property, and the subset has those that
the comparisons put there. -/
structure Picked (master_count : OccupancyHash) (phrase : Text) (Fine : HashStep → Prop)
    (taken : Text → Prop) (s : GatherState) : Prop where
  tidy : s.candidate_count.Tidy
  fine : ∀ x, taken x → ∀ e ∈ (candidateInSteps master_count phrase x).steps, Fine e
  subset : ∀ x, x ∈ s.subset ↔ taken x ∧ Takes master_count x

section
variable {flags : AnagramFlags} {excludeset : StringMap} {master_count : OccupancyHash}
  {phrase : Text} {Fine : HashStep → Prop}

theorem Picked.congr {taken taken' : Text → Prop} {s : GatherState}
    (h : Picked master_count phrase Fine taken s) (hsame : ∀ x, taken x ↔ taken' x) :
    Picked master_count phrase Fine taken' s :=
  ⟨h.tidy, fun x hx => h.fine x ((hsame x).mpr hx), fun x => by rw [← hsame, h.subset]⟩

/-- One candidate whose steps have the property. -/
theorem considerInSteps_picked {x : Text} (hbytes : cString x = x)
    (hcompare : ∀ b : OccupancyHash, b.Tidy → ∃ r, b.compare master_count = .ok r)
    (hcount : x ∉ excludeset →
      (∀ e ∈ (candidateInSteps master_count phrase x).steps, Fine e) → ∃ b, countOf x = .ok b)
    {taken : Text → Prop} {s : GatherState} (h : Picked master_count phrase Fine taken s)
    (hall : ∀ e ∈ (considerInSteps flags excludeset master_count phrase s x).steps, Fine e) :
    ∃ s', (considerInSteps flags excludeset master_count phrase s x).result = .ok s' ∧
      s'.chars_completed = s.chars_completed ∧
      Picked master_count phrase Fine (fun y => taken y ∨ (y ∉ excludeset ∧ y = x)) s' := by
  by_cases hx : x ∈ excludeset
  · rw [considerInSteps_excluded hx]
    refine ⟨s, rfl, rfl, h.congr fun y => ⟨Or.inl, ?_⟩⟩
    rintro (hy | ⟨hnot, rfl⟩)
    · exact hy
    · exact absurd hx hnot
  · rw [considerInSteps_steps hx hbytes h.tidy] at hall
    obtain ⟨s', hs', htidy, hchars, hsubset⟩ := @considerInSteps_ok flags excludeset
      master_count phrase x hx hbytes hcompare (hcount hx hall) s h.tidy
    refine ⟨s', hs', hchars, htidy, ?_, fun y => ?_⟩
    · rintro y (hy | ⟨-, rfl⟩)
      · exact h.fine y hy
      · exact hall
    · rw [hsubset, h.subset]
      constructor
      · rintro (⟨hy, htakes⟩ | ⟨rfl, htakes⟩)
        · exact ⟨Or.inl hy, htakes⟩
        · exact ⟨Or.inr ⟨hx, rfl⟩, htakes⟩
      · rintro ⟨hy | ⟨-, rfl⟩, htakes⟩
        · exact Or.inl ⟨hy, htakes⟩
        · exact Or.inr ⟨rfl, htakes⟩

end

section
variable {T : Trie} {t : search_trie.Tst UInt8} {words : List Text} (hbuilt : Built T t words)
  (hascii : ∀ x, Stored words x → Ascii x) (columns : Text → Nat → Nat) {fuel : Nat}
  (hfuel : (words.map List.length).sum < fuel) {flags : AnagramFlags} {excludeset : StringMap}
  {master_count : OccupancyHash} {phrase : Text} {Fine : HashStep → Prop}
include hbuilt hascii hfuel

theorem considered_stored {cs : List UInt8} {x : Text}
    (h : Considered T columns fuel excludeset cs x) : Stored words x := by
  obtain ⟨-, c, -, m, hm, k, hk⟩ := h
  obtain ⟨m', hm', hstored⟩ := fuzzyFind_stored hbuilt hascii columns hfuel
    (zero_notMem_cString [c])
  obtain rfl := Except.ok.inj (hm.symm.trans hm')
  exact hstored k x hk

/-- The steps of the gather block have a property when those of all candidates do, and what it
adds to the subset are candidates. -/
theorem gather_steps
    (hall : ∀ x, Considered T columns fuel excludeset (c_str phrase) x →
      ∀ e ∈ (candidateInSteps master_count phrase x).steps, Fine e) {s : GatherState}
    (htidy : s.candidate_count.Tidy)
    (hsubset : ∀ x ∈ s.subset, Considered T columns fuel excludeset (c_str phrase) x) :
    (∀ e ∈ (gatherInSteps T columns 0 fuel flags excludeset master_count phrase s).steps,
      Fine e) ∧
    ∀ s', (gatherInSteps T columns 0 fuel flags excludeset master_count phrase s).result =
        .ok s' →
      ∀ x ∈ s'.subset, Considered T columns fuel excludeset (c_str phrase) x := by
  have hloop := all_steps_foldlM (P := Fine) (I := fun s : GatherState =>
      s.candidate_count.Tidy ∧
        ∀ x ∈ s.subset, Considered T columns fuel excludeset (c_str phrase) x)
    (f := gatherLetterInSteps T columns 0 fuel flags excludeset master_count phrase)
    (c_str phrase) (fun c hc s hs => ?_) ⟨htidy, hsubset⟩
  · exact ⟨hloop.1, fun s' hs' => (hloop.2 s' hs').2⟩
  unfold gatherLetterInSteps
  split_ifs
  · refine ⟨by simp, fun s' hs' => ?_⟩
    cases hs'
    exact hs
  · obtain ⟨m, hm, hstored⟩ := fuzzyFind_stored hbuilt hascii columns hfuel
      (zero_notMem_cString [c])
    rw [hm, quiet_ok_bind]
    refine all_steps_foldlM (I := fun s : GatherState => s.candidate_count.Tidy ∧
      ∀ x ∈ s.subset, Considered T columns fuel excludeset (c_str phrase) x) m.toList
      (fun it hit s hs => ?_) hs
    have hget : m[it.1]? = some it.2 := Std.TreeMap.mem_toList_iff_getElem?_eq_some.mp hit
    have hbytes := cString_of_ascii (hascii _ (hstored _ _ hget))
    refine ⟨?_, fun s' hs' => ?_⟩
    · by_cases hx : it.2 ∈ excludeset
      · simp [considerInSteps_excluded hx]
      · rw [considerInSteps_steps hx hbytes hs.1]
        exact hall _ ⟨hx, c, hc, m, hm, it.1, hget⟩
    · obtain ⟨htidy', hnew⟩ := considerInSteps_keeps hbytes hs.1 hs'
      refine ⟨htidy', fun y hy => ?_⟩
      rcases hnew y hy with hy | ⟨hx, rfl⟩
      · exact hs.2 y hy
      · exact ⟨hx, c, hc, m, hm, it.1, hget⟩

/-- A gather block whose steps have a property that keeps the counts from failing ends. It has
taken all candidates, and the subset has those that the comparisons put there. -/
theorem gather_ends
    (hcompare : ∀ b : OccupancyHash, b.Tidy → ∃ r, b.compare master_count = .ok r)
    (hcount : ∀ x, Considered T columns fuel excludeset (c_str phrase) x →
      (∀ e ∈ (candidateInSteps master_count phrase x).steps, Fine e) → ∃ b, countOf x = .ok b)
    {world : World}
    (hall : ∀ e ∈ (gatherInSteps T columns 0 fuel flags excludeset master_count phrase
      ⟨fun _ => false, OccupancyHash.new, ∅, world⟩).steps, Fine e) :
    ∃ s, (gatherInSteps T columns 0 fuel flags excludeset master_count phrase
        ⟨fun _ => false, OccupancyHash.new, ∅, world⟩).result = .ok s ∧
      Picked master_count phrase Fine (Considered T columns fuel excludeset (c_str phrase)) s := by
  have hrun := foldlM_ok_of_steps (I := fun cs s => (∀ c, s.chars_completed c = true ↔ c ∈ cs) ∧
    Picked master_count phrase Fine (Considered T columns fuel excludeset cs) s) (c_str phrase)
    ?_ ?_ hall
  · obtain ⟨s, hs, -, hpicked⟩ := hrun
    exact ⟨s, hs, hpicked⟩
  · rintro cs c rest s hsplit ⟨hcompleted, hpicked⟩ hsteps
    obtain ⟨m, hm, hstored⟩ := fuzzyFind_stored hbuilt hascii columns hfuel
      (zero_notMem_cString [c])
    unfold gatherLetterInSteps at hsteps ⊢
    split_ifs at hsteps ⊢ with hdone
    · -- done before, so nothing is new
      have hmem : c ∈ cs := (hcompleted c).mp hdone
      refine ⟨s, rfl, fun d => ?_, hpicked.congr fun x => ?_⟩
      · rw [hcompleted, List.mem_append, List.mem_singleton]
        exact ⟨Or.inl, fun hd => hd.elim id fun heq => heq ▸ hmem⟩
      · rw [considered_iff_brought, considered_iff_brought, brought_completed (Or.inr hmem)]
    · rw [hm, quiet_ok_bind] at hsteps ⊢
      have hc : c ∈ c_str phrase := by simp [hsplit]
      have hfound := foldlM_ok_of_steps (I := fun its s' =>
        s'.chars_completed = Function.update s.chars_completed c true ∧
        Picked master_count phrase Fine (fun x => Considered T columns fuel excludeset cs x ∨
          (x ∉ excludeset ∧ x ∈ its.map Prod.snd)) s') m.toList ?_ ?_ hsteps
      · obtain ⟨s', hs', hchars, hpicked'⟩ := hfound
        refine ⟨s', hs', fun d => ?_, hpicked'.congr fun x => ?_⟩
        · rw [hchars, update_completed hcompleted, List.mem_append, List.mem_singleton]
        · rw [considered_iff_brought, considered_iff_brought, brought_snoc rfl hm]
      · rintro its it more s₁ hlist ⟨hchars, hpicked₁⟩ hsteps₁
        have hit : it ∈ m.toList := by simp [hlist]
        have hget : m[it.1]? = some it.2 := Std.TreeMap.mem_toList_iff_getElem?_eq_some.mp hit
        have hbytes := cString_of_ascii (hascii _ (hstored _ _ hget))
        obtain ⟨s₂, hs₂, hchars₂, hpicked₂⟩ := considerInSteps_picked hbytes hcompare
          (fun hx => hcount it.2 ⟨hx, c, hc, m, hm, it.1, hget⟩) hpicked₁ hsteps₁
        refine ⟨s₂, hs₂, hchars₂.trans hchars, hpicked₂.congr fun x => ?_⟩
        simp only [List.map_append, List.map_cons, List.map_nil, List.mem_append,
          List.mem_singleton, and_or_left, or_assoc]
      · exact ⟨rfl, hpicked.tidy, fun x hx => hpicked.fine x (by simpa using hx),
          fun x => by simpa using hpicked.subset x⟩
  · refine ⟨by simp, OccupancyHash.tidy_new, ?_, ?_⟩
    · rintro x ⟨-, c, hc, -⟩
      cases hc
    · intro x
      simp [Considered]

end

end anagram
