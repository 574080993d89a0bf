-- The steps of a whole job: those of the gather block, and those of every thread
-- over the subset that it has gathered. The threads own their hashes and only read
-- the subset, so the order in which they run makes no difference here.
import Anagram.GatherSteps

open outcome traced

namespace anagram

open OccupancyHash

section
variable (T : Trie) (columns : Text → Nat → Nat) (fuel cpu_tot : Nat) (flags : AnagramFlags)
  (excludeset : StringMap) (prior : OccupancyHash) (word : Text)

/-- The gather block of a job, from its start. -/
def startGather : InSteps (StringMap × World) :=
  gatherBlockInSteps T columns 0 fuel flags excludeset prior word (fun _ => false) ∅ .start

/-- A step of the job: of the gather block, or of one of the `cpu_tot` threads. -/
def JobStep (e : HashStep) : Prop :=
  e ∈ (startGather T columns fuel flags excludeset prior word).steps ∨
    ∃ subset w, (startGather T columns fuel flags excludeset prior word).result =
        .ok (subset, w) ∧
      ∃ (thread_index : Nat) (v : World), thread_index < cpu_tot ∧
        e ∈ (combineSubsetsFastInSteps fuel cpu_tot flags word subset thread_index v).steps

/-- Every access to `candidate_count_arr` in the job is inside the array. -/
def SlotsSuffice : Prop :=
  ∀ depth, JobStep T columns fuel cpu_tot flags excludeset prior word (.slot depth) → depth < 64

/-- The first step counts the phrase. -/
theorem count_mem_startGather : .count prior word ∈
    (startGather T columns fuel flags excludeset prior word).steps := by
  unfold startGather gatherBlockInSteps countInSteps
  rw [mem_steps_bind]
  exact Or.inl List.mem_cons_self

theorem count_jobStep :
    JobStep T columns fuel cpu_tot flags excludeset prior word (.count prior word) :=
  Or.inl (count_mem_startGather T columns fuel flags excludeset prior word)

end

section
variable {T : Trie} {t : search_trie.Tst UInt8} {words : List Text} (hbuilt : Built T t words)
  (hascii : ∀ x, Stored words x → Ascii x) (columns : Text → Nat → Nat) {fuel cpu_tot : Nat}
  (hfuel : (words.map List.length).sum < fuel) {flags : AnagramFlags} {excludeset : StringMap}
  {prior : OccupancyHash} {word : Text} {Fine : HashStep → Prop}
include hbuilt hascii hfuel

/-- All steps of a job have a property when the count of the phrase, the steps of each candidate
and those of each thread have it. -/
theorem job_steps (hmaster : Fine (.count prior word))
    (hcandidates : ∀ master_count, prior.getCharCountMap word = .ok master_count →
      ∀ x, Considered T columns fuel excludeset (c_str word) x →
        ∀ e ∈ (candidateInSteps master_count word x).steps, Fine e)
    (hthreads : ∀ subset w, (startGather T columns fuel flags excludeset prior word).result =
        .ok (subset, w) →
      (∀ x ∈ subset, Considered T columns fuel excludeset (c_str word) x) →
      ∀ thread_index < cpu_tot, ∀ v,
      ∀ e ∈ (combineSubsetsFastInSteps fuel cpu_tot flags word subset (thread_index : Nat) v).steps,
        Fine e) :
    ∀ e, JobStep T columns fuel cpu_tot flags excludeset prior word e → Fine e := by
  have hgather : ∀ master_count, prior.getCharCountMap word = .ok master_count → _ :=
    fun master_count hcount => @gather_steps T t words hbuilt hascii columns fuel hfuel flags
      excludeset master_count word Fine (hcandidates master_count hcount)
      ⟨fun _ => false, OccupancyHash.new, ∅, .start⟩ OccupancyHash.tidy_new
      fun x hx => absurd hx Std.TreeMap.not_mem_emptyc
  rintro e (he | ⟨subset, w, hrun, i, v, hi, he⟩)
  · unfold startGather gatherBlockInSteps countInSteps at he
    rw [mem_steps_bind, steps_note, List.mem_singleton] at he
    rcases he with rfl | ⟨master_count, hcount, he⟩
    · exact hmaster
    · rw [steps_bind_pure] at he
      exact (hgather master_count hcount).1 e he
  · refine hthreads subset w hrun ?_ i hi v e he
    unfold startGather gatherBlockInSteps countInSteps at hrun
    rw [result_bind] at hrun
    obtain ⟨master_count, hcount, hrun⟩ := bind_eq_ok.mp hrun
    rw [result_bind] at hrun
    obtain ⟨s, hs, hrun⟩ := bind_eq_ok.mp hrun
    obtain ⟨rfl, -⟩ := Prod.mk.inj (Except.ok.inj hrun)
    exact (hgather master_count hcount).2 s hs

/-- A gather block whose steps have a property that keeps the counts from failing ends, and the
subset has the candidates that the comparisons with the phrase put there. -/
theorem job_gathers (hprior : prior.Cleared) {master_count n : OccupancyHash}
    (hcount : prior.getCharCountMap word = .ok master_count) (hn : countOf word = .ok n)
    (hcounts : ∀ x, Considered T columns fuel excludeset (c_str word) x →
      (∀ e ∈ (candidateInSteps master_count word x).steps, Fine e) → ∃ b, countOf x = .ok b)
    (hall : ∀ e ∈ (startGather T columns fuel flags excludeset prior word).steps, Fine e) :
    ∃ subset w, (startGather T columns fuel flags excludeset prior word).result =
        .ok (subset, w) ∧
      (∀ x, Considered T columns fuel excludeset (c_str word) x →
        ∀ e ∈ (candidateInSteps master_count word x).steps, Fine e) ∧
      ∀ x, x ∈ subset ↔
        Considered T columns fuel excludeset (c_str word) x ∧ Takes n x := by
  have hsame : SameLook master_count n := by
    have hrelated := ofWord_sameLook hprior cleared_new word
    unfold ofWord at hrelated
    rw [hcount, show OccupancyHash.new.getCharCountMap word = .ok n from hn] at hrelated
    exact hrelated
  have hcompare : ∀ b : OccupancyHash, b.Tidy → ∃ r, b.compare master_count = .ok r := by
    intro b hb
    rw [compare_sameLook b hsame]
    exact compare_tidy hb (tidy_countOf hn)
  unfold startGather gatherBlockInSteps countInSteps at hall ⊢
  rw [hcount, note_ok_bind] at hall ⊢
  simp only [steps_bind_pure, List.forall_mem_cons] at hall
  obtain ⟨s, hs, hpicked⟩ := gather_ends hbuilt hascii columns hfuel hcompare hcounts hall.2
  refine ⟨s.subset, if flags.print_subset then printSubset s.subset s.world else s.world, ?_,
    hpicked.fine, fun x => ?_⟩
  · dsimp only
    rw [result_bind, hs, bind_ok, result_pure]
  · rw [hpicked.subset]
    unfold Takes
    simp only [compare_sameLook _ hsame, isSubset_sameLook _ hsame]

/-- The subset that a job gathers has stored words only. -/
theorem job_subset_stored {subset : StringMap}
    (hsubset : ∀ x, x ∈ subset →
      Considered T columns fuel excludeset (c_str word) x) (hne : ∀ x, Stored words x → x ≠ []) :
    subset.keys.length ≤ (words.map List.length).sum :=
  length_keys_le (fun x hx => considered_stored hbuilt hascii columns hfuel (hsubset x hx)) hne

end

/-- Every sequence drawn from the keys starts at a place of one of the threads. -/
theorem exists_place {κ : Type} {ks ys : List κ} {k : κ} {cpu_tot : Nat} (hcpu : 1 ≤ cpu_tot)
    (h : pruned_search.Drawn ks (k :: ys)) :
    ∃ i < cpu_tot, ∃ j rest, (ks.drop i).drop (j * cpu_tot) = k :: rest ∧
      pruned_search.Drawn (k :: rest) ys := by
  obtain ⟨p, rest, hp, hdrawn⟩ := pruned_search.drawn_cons_place.mp h
  refine ⟨p % cpu_tot, Nat.mod_lt _ hcpu, p / cpu_tot, rest, ?_, hdrawn⟩
  rw [List.drop_drop, Nat.mul_comm, Nat.mod_add_div]
  exact hp

end anagram
