-- The list of the characters has 40 places and no test guards it. Every count and
-- every sum writes an entry for each character that it takes for a new one, so the
-- writes stay inside the list exactly when the entries of each text and of each sum
-- fit it.
import Anagram.Entries
import Anagram.TableAccesses
import Anagram.Counters
import Anagram.Arguments

open outcome traced pruned_search

namespace anagram

/-! ## The writes of a step -/

/-- A write of a new entry is to one of the places of the list. -/
def TableAccess.InList : TableAccess → Prop
  | .cell _ => True
  | .entry place => place < kMaxCharsPerWord

/-- Every write to `occupancy_index_` that a count or a sum makes is inside the list. -/
def HashStep.WritesFit : HashStep → Prop
  | .count h text => ∀ a ∈ (h.getCharCountMapInAccesses text).steps, a.InList
  | .add h b _ _ => ∀ a ∈ (h.addAssignInAccesses b).steps, a.InList
  | _ => True

/-- The characters that the step reads have cells. -/
def HashStep.HasCells : HashStep → Prop
  | .count _ text => Ascii text
  | .add _ b _ _ => b.Tidy
  | _ => True

namespace OccupancyHash

theorem bump_writes_iff (h : OccupancyHash) (c : UInt8) (count : Int8) :
    (∀ a ∈ (h.bumpInAccesses c count).steps, a.InList) ↔ ∃ h', h.bump c count = .ok h' := by
  unfold bumpInAccesses bump occupy
  split_ifs <;> simp [TableAccess.InList, *]

theorem count_writes_iff {w : Text} (hw : Ascii w) (h : OccupancyHash) :
    (∀ a ∈ (h.getCharCountMapInAccesses w).steps, a.InList) ↔
      ∃ h', h.getCharCountMap w = .ok h' := by
  induction w generalizing h with
  | nil => exact iff_of_true (by simp [getCharCountMapInAccesses]) ⟨h, rfl⟩
  | cons c w ih =>
    obtain ⟨hpos, hlt⟩ := hw c List.mem_cons_self
    have hrest : Ascii w := fun d hd => hw d (List.mem_cons_of_mem _ hd)
    unfold getCharCountMapInAccesses getCharCountMap
    rw [if_neg (UInt8.ne_of_lt hpos).symm, if_neg (UInt8.ne_of_lt hpos).symm]
    split_ifs with hspace
    · exact ih hrest h
    · rw [cell_of_lt hlt, bind_ok, note_ok_bind, List.forall_mem_cons, all_steps_bind,
        bump_writes_iff, exists_ok_bind, result_bumpInAccesses]
      simp only [ih hrest]
      exact and_iff_right trivial

theorem addLoop_writes_iff {b : OccupancyHash} (tb : Tidy b) (k : Nat) (hk : k ≤ b.index_ptr)
    (h : OccupancyHash) :
    (∀ a ∈ (h.addLoopInAccesses b k).steps, a.InList) ↔ ∃ h', h.addLoop b k = .ok h' := by
  induction k generalizing h with
  | zero => exact iff_of_true (by simp [addLoopInAccesses]) ⟨h, rfl⟩
  | succ k ih =>
    unfold addLoopInAccesses addLoop
    rw [tb.occupied hk, bind_ok, note_ok_bind, List.forall_mem_cons, all_steps_bind,
      bump_writes_iff, exists_ok_bind, result_bumpInAccesses]
    simp only [ih (Nat.le_of_succ_le hk)]
    exact and_iff_right trivial

end OccupancyHash

/-- A step makes all its writes inside the list exactly when it does not fail. -/
theorem HashStep.writesFit_iff_succeeds {e : HashStep} (he : e.HasCells) :
    e.WritesFit ↔ e.Succeeds := by
  cases e with
  | count h text => exact OccupancyHash.count_writes_iff he h
  | add h b left right => exact OccupancyHash.addLoop_writes_iff he _ le_rfl h
  | compare a b left right => exact Iff.rfl
  | slot depth => exact Iff.rfl

/-! ## The steps of a job have cells -/

theorem thread_hasCells {slots fuel cpu_tot : Nat} {flags : AnagramFlags} {word : Text}
    {keys : List Text} (hword : Ascii word) (hkeys : ∀ k ∈ keys, Ascii k) (thread_index : Int)
    (w : World) : ∀ e ∈ (combineInSteps slots fuel cpu_tot flags word keys thread_index w).steps,
      e.HasCells := by
  refine all_thread_steps hword hkeys fun m _ j k l rest ys a hj hdrawn _ _ ha => ?_
  have hmem := mem_of_drawn hj hdrawn
  refine (all_nextSteps_iff ha).mpr ⟨hkeys l (hmem l (by simp)), fun b hb => ⟨tidy_countOf ha,
    fun sum hsum => ⟨trivial, fun r hr hcmp => ⟨trivial, fun hd => ?_⟩⟩⟩⟩
  exact ascii_phrase fun y hy => hkeys y (hmem y (by simpa using hy))

/-! ## The whole job -/

section
variable (T : Trie) (columns : Text → Nat → Nat) (fuel : Nat) (flags : AnagramFlags)
  (excludeset : StringMap) (word : Text)

/-- The words that the gather block puts into the subset. -/
def JobSubset (x : Text) : Prop :=
  Considered T columns fuel excludeset (c_str word) x ∧
    ∃ master_count, countOf word = .ok master_count ∧ Takes master_count x

/-- Words of the subset in the order of the map, after each of which the comparison of the code lets
the search go on. -/
def JobGoesOn (ws : List Text) : Prop :=
  (∀ w ∈ ws, JobSubset T columns fuel excludeset word w) ∧
    ws.Pairwise (fun a b => (compare a b).isLE) ∧
    ∃ master_count, countOf word = .ok master_count ∧
      ∃ k ys, ws = k :: ys ∧ Descends (combineRules 64 flags master_count) [k] ys

/-- The entries of each text that the job counts and of each sum that it compares fit the list: of
the phrase, of the candidates, of the words that the search goes on from, and of one more word and
the words before it. -/
structure EntriesFit : Prop where
  phrase_le : entries (letters word) ≤ kMaxCharsPerWord
  words_le : ∀ x, Considered T columns fuel excludeset (c_str word) x →
    entries (letters x) ≤ kMaxCharsPerWord
  partials_le : ∀ ws, JobGoesOn T columns fuel flags excludeset word ws →
    entries (total letters ws) ≤ kMaxCharsPerWord
  sums_le : ∀ ws k, JobGoesOn T columns fuel flags excludeset word ws →
    JobSubset T columns fuel excludeset word k →
    (ws ++ [k]).Pairwise (fun a b => (compare a b).isLE) →
    (flags.allow_dupes = true ∨ k ≠ phrase ws) →
    sumEntries (letters k) (total letters ws) ≤ kMaxCharsPerWord

end

theorem skip_eq_false {slots : Nat} {flags : AnagramFlags} {master_count : OccupancyHash}
    {ws : List Text} {k : Text} : (combineRules slots flags master_count).skip ws k = false ↔
      flags.allow_dupes = true ∨ k ≠ phrase ws := by
  simp only [combineRules]
  cases flags.allow_dupes <;> simp

theorem countOf_ok_iff {w : Text} (hw : Ascii w) :
    (∃ h, countOf w = .ok h) ↔ entries (letters w) ≤ kMaxCharsPerWord :=
  OccupancyHash.count_ok_iff OccupancyHash.cleared_new hw

theorem counted_countOf {w : Text} (hw : Ascii w) {h : OccupancyHash} (hrun : countOf w = .ok h) :
    h.Counted (letters w) := OccupancyHash.counted_of_count OccupancyHash.cleared_new hw hrun

/-- The sum of the counts of two texts can be formed when its entries fit the list. -/
theorem add_countOf_ok_iff {u v : Text} (hu : Ascii u) (hv : Ascii v) {a b : OccupancyHash}
    (ha : countOf u = .ok a) (hb : countOf v = .ok b) :
    (∃ sum, a.addAssign b = .ok sum) ↔ sumEntries (letters u) (letters v) ≤ kMaxCharsPerWord :=
  OccupancyHash.add_ok_iff (counted_countOf hu ha) (counted_countOf hv hb) (tidy_countOf ha)
    (tidy_countOf hb)

section
variable {T : Trie} {t : search_trie.Tst UInt8} {words : List Text} (hbuilt : Built T t words)
  (hplain : ∀ w ∈ words, Plain w) (columns : Text → Nat → Nat) {fuel cpu_tot : Nat}
  (hfuel : (words.map List.length).sum + 67 ≤ fuel) {flags : AnagramFlags}
  {excludeset : StringMap} {prior : OccupancyHash} (hprior : prior.Cleared) {word : Text}
  (hword : Ascii word)
include hbuilt hplain hfuel hword

theorem job_hasCells :
    ∀ e, JobStep T columns fuel cpu_tot flags excludeset prior word e → e.HasCells := by
  have hascii := ascii_of_stored hplain
  have hconsidered : ∀ x, Considered T columns fuel excludeset (c_str word) x → Ascii x :=
    fun x hx => hascii x (considered_stored hbuilt hascii columns (by omega) hx)
  refine job_steps hbuilt hascii columns (by omega) hword (fun m _ x hx => ?_)
    fun subset w _ hsubset i _ v => ?_
  · rw [all_candidateSteps_iff]
    exact ⟨hconsidered x hx, fun _ _ => trivial⟩
  · exact thread_hasCells hword
      (fun k hk => hconsidered k (hsubset k (Std.TreeMap.mem_keys.mp hk))) i v

include hprior

/-- Counts that fit the list end the gather block, and it has put the words of the subset there. -/
theorem gather_subset (hphrase : entries (letters word) ≤ kMaxCharsPerWord)
    (hwords : ∀ x, Considered T columns fuel excludeset (c_str word) x →
      entries (letters x) ≤ kMaxCharsPerWord) :
    ∃ subset w, (startGather T columns fuel flags excludeset prior word).result =
        .ok (subset, w) ∧
      ∀ x, x ∈ subset ↔ JobSubset T columns fuel excludeset word x := by
  have hascii := ascii_of_stored hplain
  obtain ⟨n, hn⟩ := (countOf_ok_iff hword).mpr hphrase
  obtain ⟨master_count, hcount⟩ := (OccupancyHash.count_ok_iff hprior hword).mpr hphrase
  obtain ⟨subset, w, hrun, -, hmem⟩ := @job_gathers _ _ _ hbuilt hascii columns _ (by omega)
    flags excludeset _ _ (fun _ => True) hprior _ _ hcount hn (fun x hx _ =>
      (countOf_ok_iff (hascii x (considered_stored hbuilt hascii columns (by omega) hx))).mpr
        (hwords x hx)) (fun _ _ => trivial)
  refine ⟨subset, w, hrun, fun x => (hmem x).trans (and_congr_right fun _ => ?_)⟩
  constructor
  · exact fun h => ⟨n, hn, h⟩
  · rintro ⟨n', hn', h⟩
    exact Except.ok.inj (hn.symm.trans hn') ▸ h

/-- When the entries fit the list, no count and no sum of the job fails. -/
theorem succeeds_of_entriesFit (hfit : EntriesFit T columns fuel flags excludeset word) :
    ∀ e, JobStep T columns fuel cpu_tot flags excludeset prior word e → e.Succeeds := by
  have hascii := ascii_of_stored hplain
  have hconsidered : ∀ x, Considered T columns fuel excludeset (c_str word) x →
      Ascii x ∧ ∃ h, countOf x = .ok h := by
    intro x hx
    have hx' := hascii x (considered_stored hbuilt hascii columns (by omega) hx)
    exact ⟨hx', (countOf_ok_iff hx').mpr (hfit.words_le x hx)⟩
  refine job_steps hbuilt hascii columns (by omega)
    ((OccupancyHash.count_ok_iff hprior hword).mpr hfit.phrase_le) (fun m _ x hx => ?_)
    fun subset w hrun _ i _ v => ?_
  · rw [all_candidateSteps_iff]
    exact ⟨(hconsidered x hx).2, fun _ _ => trivial⟩
  obtain ⟨subset', w', hrun', hmem⟩ := gather_subset hbuilt hplain columns hfuel hprior hword
    hfit.phrase_le hfit.words_le
  obtain ⟨rfl, rfl⟩ := Prod.mk.inj (Except.ok.inj (hrun.symm.trans hrun'))
  have hkeys : ∀ k ∈ subset.keys, Ascii k ∧ ∃ h, countOf k = .ok h := fun k hk =>
    hconsidered k ((hmem k).mp (Std.TreeMap.mem_keys.mp hk)).1
  refine all_thread_steps ((countOf_ok_iff hword).mpr hfit.phrase_le) (fun k hk => (hkeys k hk).2)
    fun n hn j k l rest ys a hj hdrawn hdesc hskip ha => ?_
  have hall := mem_of_drawn hj hdrawn
  have hl := hall l (by simp)
  have hphrase : ∀ ws : List Text, (∀ y ∈ ws, y ∈ subset.keys) → Ascii (phrase ws) :=
    fun ws hws => ascii_phrase fun y hy => (hkeys y (hws y hy)).1
  rw [List.drop_drop] at hj
  obtain ⟨hsubset, hsorted⟩ := (drawn_keys_iff subset _).mp
    (drawn_cons_place.mpr ⟨_, rest, hj, hdrawn⟩)
  have hgoes : JobGoesOn T columns fuel flags excludeset word (k :: ys) :=
    ⟨fun y hy => (hmem y).mp (hsubset y (List.mem_append_left [l] hy)),
      (List.pairwise_append.mp hsorted).1, n, hn, k, ys, rfl, hdesc⟩
  refine (all_nextSteps_iff ha).mpr ⟨(hkeys l hl).2, fun b hb => ⟨?_, fun sum hsum => ⟨trivial,
    fun r hr hcmp => ⟨trivial, fun _ => ?_⟩⟩⟩⟩
  · refine (add_countOf_ok_iff (hkeys l hl).1
      (hphrase _ fun y hy => hall y (List.mem_append_left [l] hy)) hb ha).mpr ?_
    rw [letters_phrase]
    exact hfit.sums_le (k :: ys) l hgoes ((hmem l).mp (Std.TreeMap.mem_keys.mp hl)) hsorted
      (skip_eq_false.mp hskip)
  · -- the search goes on from the words with the next one too
    have hdesc' : Descends (combineRules 64 flags n) [k] (ys ++ [l]) :=
      (descends_append ..).mpr ⟨hdesc, hskip, ⟨r, hr, (verdict_eq_ok ha).mpr
        ⟨b, sum, hb, hsum, hcmp⟩⟩, trivial⟩
    refine (countOf_ok_iff (hphrase _ fun y hy => hall y (by simpa using hy))).mpr ?_
    rw [letters_phrase]
    exact hfit.partials_le (k :: (ys ++ [l])) ⟨fun y hy => (hmem y).mp (hsubset y hy), hsorted,
      n, hn, k, ys ++ [l], rfl, hdesc'⟩

/-- When no count of the gather block fails, its texts fit the list. -/
theorem entries_of_gather
    (hall : ∀ e ∈ (startGather T columns fuel flags excludeset prior word).steps, e.Succeeds) :
    entries (letters word) ≤ kMaxCharsPerWord ∧
      ∀ x, Considered T columns fuel excludeset (c_str word) x →
        entries (letters x) ≤ kMaxCharsPerWord := by
  have hascii := ascii_of_stored hplain
  have hcountstep : HashStep.Succeeds (.count prior word) :=
    hall _ (count_mem_startGather T columns fuel flags excludeset prior word)
  have hphrase := (OccupancyHash.count_ok_iff hprior hword).mp hcountstep
  obtain ⟨master_count, hcount⟩ := hcountstep
  obtain ⟨n, hn⟩ := (countOf_ok_iff hword).mpr hphrase
  obtain ⟨-, -, -, hcandidates, -⟩ := job_gathers hbuilt hascii columns (by omega : _ < fuel)
    hprior hcount hn (fun x _ hx => (all_candidateSteps_iff.mp hx).1) hall
  refine ⟨hphrase, fun x hx => ?_⟩
  exact (countOf_ok_iff (hascii x (considered_stored hbuilt hascii columns (by omega) hx))).mp
    (all_candidateSteps_iff.mp (hcandidates x hx)).1

/-- When no count and no sum of the job fails and the array of the hashes is large enough for it,
the turns that the search could get to do not fail. -/
theorem turn_of_succeeds (hcpu : 1 ≤ cpu_tot)
    (hslots : SlotsSuffice T columns fuel cpu_tot flags excludeset prior word)
    (hall : ∀ e, JobStep T columns fuel cpu_tot flags excludeset prior word e → e.Succeeds)
    {n : OccupancyHash} (hn : countOf word = .ok n) {k l : Text} {ys : List Text}
    (hmem : ∀ w ∈ k :: ys ++ [l], JobSubset T columns fuel excludeset word w)
    (hsorted : (k :: ys ++ [l]).Pairwise (fun a b => (compare a b).isLE))
    (hdesc : Descends (combineRules 64 flags n) [k] ys)
    (hskip : (combineRules 64 flags n).skip (k :: ys) l = false) :
    ∃ a, countOf (phrase (k :: ys)) = .ok a ∧
      ∀ e ∈ turnSteps 64 n word (.next (k :: ys) l), e.Succeeds ∧ e.Within 64 := by
  have hascii := ascii_of_stored hplain
  obtain ⟨hphrase, hwords⟩ := entries_of_gather hbuilt hplain columns hfuel hprior hword
    fun e he => hall e (Or.inl he)
  obtain ⟨subset, w, hrun, hsubset⟩ := @gather_subset T t words hbuilt hplain columns fuel hfuel
    flags excludeset prior hprior word hword hphrase hwords
  obtain ⟨i, hi, j, rest, hj, hdrawn⟩ := exists_place hcpu ((drawn_keys_iff subset _).mpr
    ⟨fun y hy => (hsubset y).mpr (hmem y hy), hsorted⟩)
  have hlength := job_subset_stored hbuilt hascii columns (by omega : _ < fuel)
    (fun x hx => ((hsubset x).mp hx).1) (ne_nil_of_stored hplain)
  -- the phrase itself compares as equal, so it is not in the subset
  have hstuck : ∀ y ∈ subset.keys, (!flags.allow_dupes && y == word) = false := by
    intro y hy
    obtain ⟨-, m, hm, b, r, hb, hr, hne, -⟩ := (hsubset y).mp (Std.TreeMap.mem_keys.mp hy)
    have hother : y ≠ word := by
      rintro rfl
      obtain rfl := Except.ok.inj (hm.symm.trans hb)
      exact hne (Except.ok.inj (hr.symm.trans (OccupancyHash.compare_self (tidy_countOf hm))))
    simp [hother]
  have hthread : ∀ e ∈ (combineInSteps 64 fuel cpu_tot flags word subset.keys (i : Nat)
      .start).steps, e.Succeeds ∧ e.Within 64 := by
    intro e he
    have hstep : JobStep T columns fuel cpu_tot flags excludeset prior word e :=
      Or.inr ⟨subset, w, hrun, i, .start, hi, he⟩
    exact ⟨hall e hstep, HashStep.within_iff.mpr fun depth h => hslots depth (h ▸ hstep)⟩
  obtain ⟨hentered, hsteps⟩ := ((thread_steps_iff hcpu (by omega) (by omega : 64 + 1 < fuel) hstuck
    i .start fun _ _ t _ _ h => h).mp hthread).2 n hn _
      ⟨j, k, rest, hj, Or.inr ⟨ys, l, rfl, hdrawn, hdesc, hskip⟩⟩
  obtain ⟨-, a, ha⟩ := enter_eq_ok.mp hentered
  exact ⟨a, ha, hsteps⟩

theorem entriesFit_of_succeeds (hcpu : 1 ≤ cpu_tot)
    (hslots : SlotsSuffice T columns fuel cpu_tot flags excludeset prior word)
    (hall : ∀ e, JobStep T columns fuel cpu_tot flags excludeset prior word e → e.Succeeds) :
    EntriesFit T columns fuel flags excludeset word := by
  have hascii := ascii_of_stored hplain
  obtain ⟨hphrase, hwords⟩ := entries_of_gather hbuilt hplain columns hfuel hprior hword
    fun e he => hall e (Or.inl he)
  have hsubset : ∀ x, JobSubset T columns fuel excludeset word x → Ascii x :=
    fun x hx => hascii x (considered_stored hbuilt hascii columns (by omega) hx.1)
  refine ⟨hphrase, hwords, ?_, ?_⟩
  · rintro ws ⟨hmem, hsorted, n, hn, k, ys, rfl, hdesc⟩
    rcases List.eq_nil_or_concat ys with rfl | ⟨pre, l, rfl⟩
    · rw [total_cons, total_nil, add_zero]
      exact hwords k (hmem k List.mem_cons_self).1
    · rw [List.concat_eq_append] at *
      rw [descends_append] at hdesc
      obtain ⟨hdesc, hskip, ⟨r, hr, hverdict⟩, -⟩ := hdesc
      obtain ⟨a, ha, hsteps⟩ := turn_of_succeeds hbuilt hplain columns hfuel hprior hword hcpu
        hslots hall hn hmem hsorted hdesc hskip
      obtain ⟨b, sum, hb, hsum, hcmp⟩ := (verdict_eq_ok ha).mp hverdict
      obtain ⟨⟨-, hslot⟩, hcount⟩ :=
        ((((all_nextSteps_iff ha).mp hsteps).2 b hb).2 sum hsum).2 r hr hcmp
      rw [← letters_phrase]
      exact (countOf_ok_iff (ascii_phrase fun y hy => hsubset y (hmem y hy))).mp (hcount hslot).1
  · rintro ws l ⟨hmem, -, n, hn, k, ys, rfl, hdesc⟩ hl hsorted htaken
    have hmem' : ∀ w ∈ k :: ys ++ [l], JobSubset T columns fuel excludeset word w := by
      intro y hy
      rcases List.mem_append.mp hy with hy | hy
      · exact hmem y hy
      · exact List.mem_singleton.mp hy ▸ hl
    obtain ⟨a, ha, hsteps⟩ := turn_of_succeeds hbuilt hplain columns hfuel hprior hword hcpu
      hslots hall hn hmem' hsorted hdesc (skip_eq_false.mpr htaken)
    obtain ⟨⟨⟨b, hb⟩, -⟩, hrest⟩ := (all_nextSteps_iff ha).mp hsteps
    rw [← letters_phrase]
    exact (add_countOf_ok_iff (hsubset l hl) (ascii_phrase fun y hy => hsubset y (hmem y hy)) hb
      ha).mp (hrest b hb).1.1

end

/-- For every phrase and all words over the bytes 1 to 127, every write to the list that a count or
a sum of the job makes is inside it when the entries of the texts and of the sums fit it. If the
array of the hashes is large enough for the job, only then. Where no counter overflows, this is so
exactly when the phrase and each candidate have at most 40 distinct letters. -/
theorem the_writes_fit_iff_the_entries_do {words : List Text} (hplain : ∀ w ∈ words, Plain w)
    (columns : Text → Nat → Nat) (flags : AnagramFlags) (excludeset : StringMap)
    {prior : OccupancyHash} (hprior : prior.Cleared) {word : Text} (hword : Ascii word)
    {cpu_tot : Nat} (hcpu : 1 ≤ cpu_tot) {fuel : Nat}
    (hfuel : (words.map List.length).sum + 67 ≤ fuel) :
    ∃ T, Trie.insertAll fuel words .empty = .ok T ∧
      (EntriesFit T columns fuel flags excludeset word →
        ∀ e, JobStep T columns fuel cpu_tot flags excludeset prior word e → e.WritesFit) ∧
      (SlotsSuffice T columns fuel cpu_tot flags excludeset prior word →
        (∀ e, JobStep T columns fuel cpu_tot flags excludeset prior word e → e.WritesFit) →
        EntriesFit T columns fuel flags excludeset word) ∧
      (NoCounterOverflows T columns fuel flags excludeset word →
        ((∀ e, JobStep T columns fuel cpu_tot flags excludeset prior word e → e.WritesFit) ↔
          (letters word).toFinset.card ≤ kMaxCharsPerWord ∧
            ∀ x, Considered T columns fuel excludeset (c_str word) x →
              (letters x).toFinset.card ≤ kMaxCharsPerWord)) := by
  obtain ⟨T, t, hinsert, hbuilt⟩ := insertAll_built (fun w hw => (hplain w hw).storable)
    (by omega : _ < fuel)
  have hcells := @job_hasCells T t words hbuilt hplain columns fuel cpu_tot hfuel flags excludeset
    prior word hword
  refine ⟨T, hinsert, fun hfit e he => ?_, fun hslots hfit => ?_, fun hno => ⟨fun hfit => ?_, ?_⟩⟩
  · rw [HashStep.writesFit_iff_succeeds (hcells e he)]
    exact succeeds_of_entriesFit hbuilt hplain columns hfuel hprior hword hfit e he
  · refine entriesFit_of_succeeds hbuilt hplain columns hfuel hprior hword hcpu hslots
      fun e he => ?_
    rw [← HashStep.writesFit_iff_succeeds (hcells e he)]
    exact hfit e he
  · obtain ⟨hphrase, hwords⟩ := @entries_of_gather T t words hbuilt hplain columns fuel hfuel flags
      excludeset prior hprior word hword fun e he =>
        (HashStep.writesFit_iff_succeeds (hcells e (Or.inl he))).mp (hfit e (Or.inl he))
    refine ⟨?_, fun x hx => ?_⟩
    · rw [← entries_eq_distinct hno.phrase_le]
      exact hphrase
    · rw [← entries_eq_distinct (hno.words_le x hx)]
      exact hwords x hx
  · rintro ⟨hletters, hdistinct⟩ e he
    rw [HashStep.writesFit_iff_succeeds (hcells e he)]
    exact (exact_of_no_overflow hbuilt hplain columns hfuel hprior hword hletters hdistinct hno e
      he).succeeds

theorem the_writes_for_ab_fit :
    ∃ T, Trie.insertAll 69 [bytes "a", bytes "b"] .empty = .ok T ∧
      ∀ e, JobStep T (fun _ _ => 0) 69 1 ⟨false, false, false⟩ ∅ .new (bytes "ab") e →
        e.WritesFit := by
  have hb : InBounds (bytes "ab") := .of_length_le (by decide +kernel) (by decide)
  have hplain : ∀ w ∈ [bytes "a", bytes "b"], Plain w ∧ w.length ≤ 127 := by decide +kernel
  obtain ⟨T, hinsert, -, -, hfit⟩ := the_writes_fit_iff_the_entries_do
    (fun w hw => (hplain w hw).1) (fun _ _ => 0) ⟨false, false, false⟩ ∅
    OccupancyHash.cleared_new hb.ascii le_rfl (by decide : _ ≤ 69)
  obtain ⟨T', t, hinsert', hbuilt⟩ := insertAll_built
    (fun w hw => (hplain w hw).1.storable) (by decide : _ < 69)
  obtain rfl := Except.ok.inj (hinsert.symm.trans hinsert')
  refine ⟨T, hinsert, (hfit (hb.noCounterOverflows hbuilt hplain _ (by decide) _ _)).mpr
    ⟨hb.distinct_le, fun x hx => ?_⟩⟩
  exact distinct_stored_le (by decide) (considered_stored hbuilt
    (ascii_of_stored fun w hw => (hplain w hw).1) _ (by decide) hx)

/-- The letters, the digits and five more characters, 41 in all. -/
def fortyOneLetters : Text := bytes "abcdefghijklmnopqrstuvwxyz0123456789!#%+="

/-- For a phrase of 41 different characters, which the program accepts, the first step of the job
writes the entry 40, past the end of the list. -/
theorem the_phrase_of_41_letters_overruns_the_list :
    (parseArguments [fortyOneLetters]).map Arguments.word = some fortyOneLetters ∧
      Ascii fortyOneLetters ∧
      ∃ e, JobStep .empty (fun _ _ => 0) 67 1 ⟨false, false, false⟩ ∅ .new fortyOneLetters e ∧
        ¬ e.WritesFit := by
  refine ⟨by decide +kernel, by decide +kernel, .count .new fortyOneLetters,
    count_jobStep .., fun hfit => ?_⟩
  have hwrite : .entry 40 ∈
      (OccupancyHash.new.getCharCountMapInAccesses fortyOneLetters).steps := by decide +kernel
  exact absurd (hfit _ hwrite) (lt_irrefl 40)

end anagram
