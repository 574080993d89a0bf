-- The gather lock of GetAnagrams as a barrier. A worker that takes and
-- releases the lock comes after worker 0 only if worker 0 took it first, and
-- nothing in RunJob sees to that. The law: when worker 0 is the first to take
-- the lock, all workers combine over the complete subset.
import Anagram.RunJob

open interleaving

namespace anagram

/-- The worker has released the gather lock. -/
def WorkerAt.Past : WorkerAt → Prop
  | .past_gather | .combining _ | .finishing _ | .finished _ => True
  | _ => False

/-- The subset that a worker has begun to iterate. -/
def WorkerAt.seen : WorkerAt → Option (List Text)
  | .combining subset | .finishing subset | .finished subset => some subset
  | _ => none

/-- The barrier: when a worker other than worker 0 has begun `CombineSubsetsFast`, worker 0 has
filled the subset and released the lock, and each worker that has begun iterates the complete
subset, which is still what it was. -/
structure Barrier (job : Job) (s : JobState) : Prop where
  released : ∀ k ≠ 0, (s.workers k).seen.isSome → (s.workers 0).Past
  complete : ∀ k subset, (s.workers k).seen = some subset →
    subset = job.gathered ∧ s.subset = job.gathered

/-- A worker other than worker 0 takes the lock only after worker 0 has taken it. -/
def ZeroFirst (s : JobState) : JobAct → Prop
  | .runJob => True
  | .worker i => i ≠ 0 → s.workers i = .acquiring →
    s.workers 0 ≠ .uncreated ∧ s.workers 0 ≠ .acquiring

instance (s : JobState) : (a : JobAct) → Decidable (ZeroFirst s a)
  | .runJob => isTrue trivial
  | .worker i => inferInstanceAs (Decidable (i ≠ 0 → s.workers i = .acquiring →
      s.workers 0 ≠ .uncreated ∧ s.workers 0 ≠ .acquiring))

/-! ## The invariant -/

/-- Who holds the lock and how far the subset is filled, when worker 0 takes the lock first. -/
structure GatherOk (job : Job) (s : JobState) : Prop where
  holds_iff : ∀ i, s.gather_lock = some i ↔ s.workers i = .gathering ∨ s.workers i = .holding
  gathering : ∀ i, s.workers i = .gathering → i = 0
  holding : ∀ i, s.workers i = .holding → i ≠ 0
  first : ∀ k, s.workers k = .holding ∨ (s.workers k).Past → (s.workers 0).Past
  filled : s.subset <+: job.gathered
  complete : (s.workers 0).Past → s.subset = job.gathered
  seen : ∀ k subset, (s.workers k).seen = some subset → subset = job.gathered

theorem WorkerAt.past_of_seen {w : WorkerAt} {subset : List Text} (h : w.seen = some subset) :
    w.Past := by
  cases w with
  | combining | finishing | finished => trivial
  | _ => cases h

theorem GatherOk.barrier {job : Job} {s : JobState} (h : GatherOk job s) : Barrier job s where
  released k _ hk := by
    obtain ⟨subset, hsub⟩ := Option.isSome_iff_exists.mp hk
    exact h.first k (Or.inr (WorkerAt.past_of_seen hsub))
  complete k subset hk :=
    ⟨h.seen k subset hk, h.complete (h.first k (Or.inr (WorkerAt.past_of_seen hk)))⟩

theorem gatherOk_start (job : Job) : GatherOk job .start where
  holds_iff i := by simp [JobState.start]
  gathering i h := by cases h
  holding i h := by cases h
  first k h := by rcases h with h | h <;> cases h
  filled := List.nil_prefix
  complete h := h.elim
  seen k subset h := by cases h

/-- Two states that agree on the lock, the subset and the workers. -/
theorem GatherOk.congr {job : Job} {s t : JobState} (h : GatherOk job s)
    (hworkers : ∀ i, t.workers i = s.workers i) (hlock : t.gather_lock = s.gather_lock)
    (hsubset : t.subset = s.subset) : GatherOk job t where
  holds_iff i := by rw [hlock, hworkers, h.holds_iff]
  gathering i := by rw [hworkers]; exact h.gathering i
  holding i := by rw [hworkers]; exact h.holding i
  first k := by rw [hworkers, hworkers]; exact h.first k
  filled := hsubset ▸ h.filled
  complete := by rw [hworkers, hsubset]; exact h.complete
  seen k subset := by rw [hworkers]; exact h.seen k subset

/-- A worker that is out of the lock moves to a place out of the lock. -/
theorem GatherOk.move {job : Job} {s t : JobState} (h : GatherOk job s) {i : Nat} {w : WorkerAt}
    (hworkers : t.workers = (s.setWorker i w).workers) (hlock : t.gather_lock = s.gather_lock)
    (hsubset : t.subset = s.subset)
    (hold : s.workers i ≠ .gathering ∧ s.workers i ≠ .holding)
    (hnew : w ≠ .gathering ∧ w ≠ .holding) (hpast : w.Past ↔ (s.workers i).Past)
    (hseen : ∀ subset, w.seen = some subset → subset = job.gathered) : GatherOk job t := by
  have hself : t.workers i = w := by rw [hworkers, setWorker_self]
  have hne : ∀ j, j ≠ i → t.workers j = s.workers j := fun j hj => by
    rw [hworkers, setWorker_ne s hj]
  have hsame : ∀ j, (t.workers j).Past ↔ (s.workers j).Past := by
    intro j
    by_cases hj : j = i
    · subst hj
      rw [hself, hpast]
    · rw [hne j hj]
  have hin : ∀ j, (t.workers j = .gathering ↔ s.workers j = .gathering) ∧
      (t.workers j = .holding ↔ s.workers j = .holding) := by
    intro j
    by_cases hj : j = i
    · subst hj
      rw [hself]
      exact ⟨iff_of_false hnew.1 hold.1, iff_of_false hnew.2 hold.2⟩
    · rw [hne j hj]
      exact ⟨Iff.rfl, Iff.rfl⟩
  refine ⟨fun j => ?_, fun j hj => ?_, fun j hj => ?_, fun k hk => ?_, ?_, fun h0 => ?_,
    fun k subset hk => ?_⟩
  · rw [hlock, h.holds_iff, (hin j).1, (hin j).2]
  · exact h.gathering j ((hin j).1.mp hj)
  · exact h.holding j ((hin j).2.mp hj)
  · rw [(hin k).2, hsame k] at hk
    exact (hsame 0).mpr (h.first k hk)
  · rw [hsubset]
    exact h.filled
  · rw [hsubset]
    exact h.complete ((hsame 0).mp h0)
  · by_cases hki : k = i
    · subst hki
      rw [hself] at hk
      exact hseen subset hk
    · rw [hne k hki] at hk
      exact h.seen k subset hk

/-- The lock is taken: by worker 0, or after worker 0 has released it. -/
theorem GatherOk.take {job : Job} {s : JobState} (h : GatherOk job s) {i : Nat}
    (hi : s.workers i = .acquiring) (hlock : s.gather_lock = none)
    (hzero : i ≠ 0 → (s.workers 0).Past) :
    GatherOk job { s.setWorker i (if i = 0 then .gathering else .holding) with
      gather_lock := some i } := by
  have hfree : ∀ j, s.workers j ≠ .gathering ∧ s.workers j ≠ .holding := by
    intro j
    have hj := (h.holds_iff j).not.mp (by simp [hlock])
    exact not_or.mp hj
  have hpast : ∀ k, (s.workers k).Past → i ≠ 0 := by
    rintro k hk rfl
    have h0 := h.first k (Or.inr hk)
    rw [hi] at h0
    exact h0
  refine ⟨fun j => ?_, fun j hj => ?_, fun j hj => ?_, fun k hk => ?_, h.filled, fun h0 => ?_,
    fun k subset hk => ?_⟩
  · by_cases hj : j = i
    · subst hj
      simp only [setWorker_self, true_iff]
      split <;> simp
    · simp only [setWorker_ne s hj, Option.some_inj]
      exact iff_of_false (Ne.symm hj) (not_or.mpr (hfree j))
  · by_contra hj0
    by_cases hji : j = i
    · subst hji
      simp [hj0] at hj
    · exact (hfree j).1 (by simpa [hji] using hj)
  · rintro rfl
    by_cases hji : 0 = i
    · subst hji
      simp at hj
    · exact (hfree 0).2 (by simpa [hji] using hj)
  · have hi0 : i ≠ 0 := by
      rintro rfl
      by_cases hk0 : k = 0
      · subst hk0
        rcases hk with hk | hk
        · simp at hk
        · simp [WorkerAt.Past] at hk
      · simp only [setWorker_ne s hk0] at hk
        rcases hk with hk | hk
        · exact (hfree k).2 hk
        · exact hpast k hk rfl
    simp only [setWorker_ne s hi0.symm]
    exact hzero hi0
  · by_cases hi0 : i = 0
    · subst hi0
      simp [WorkerAt.Past] at h0
    · simp only [setWorker_ne s (Ne.symm hi0)] at h0
      exact h.complete h0
  · by_cases hki : k = i
    · subst hki
      simp only [setWorker_self] at hk
      split at hk <;> cases hk
    · simp only [setWorker_ne s hki] at hk
      exact h.seen k subset hk

/-- The lock is released: by worker 0 with the complete subset, or by another worker. -/
theorem GatherOk.give {job : Job} {s : JobState} (h : GatherOk job s) {i : Nat}
    (hi : s.workers i = .gathering ∨ s.workers i = .holding) (hlock : s.gather_lock = some i)
    (hfull : i = 0 → s.subset = job.gathered) :
    GatherOk job { s.setWorker i .past_gather with gather_lock := none } := by
  have hother : ∀ j, j ≠ i → s.workers j ≠ .gathering ∧ s.workers j ≠ .holding := by
    intro j hj
    have hnot := (h.holds_iff j).not.mp (by simp [hlock, Ne.symm hj])
    exact not_or.mp hnot
  have hzero : i ≠ 0 → (s.workers 0).Past := by
    intro hi0
    rcases hi with hi | hi
    · exact absurd (h.gathering i hi) hi0
    · exact h.first i (Or.inl hi)
  refine ⟨fun j => ?_, fun j hj => ?_, fun j hj => ?_, fun k _ => ?_, h.filled, fun _ => ?_,
    fun k subset hk => ?_⟩
  · by_cases hj : j = i
    · subst hj
      simp
    · simp only [setWorker_ne s hj, reduceCtorEq, false_iff]
      exact not_or.mpr (hother j hj)
  · by_cases hji : j = i
    · subst hji
      simp at hj
    · exact h.gathering j (by simpa [hji] using hj)
  · by_cases hji : j = i
    · subst hji
      simp at hj
    · exact h.holding j (by simpa [hji] using hj)
  · by_cases hi0 : i = 0
    · subst hi0
      simp [WorkerAt.Past]
    · simp only [setWorker_ne s (Ne.symm hi0)]
      exact hzero hi0
  · by_cases hi0 : i = 0
    · exact hfull hi0
    · exact h.complete (hzero hi0)
  · by_cases hki : k = i
    · subst hki
      simp [WorkerAt.seen] at hk
    · simp only [setWorker_ne s hki] at hk
      exact h.seen k subset hk

theorem gatherOk_step {job : Job} {s t : JobState} {a : JobAct} (hc : Creation job s)
    (h : GatherOk job s) (hfirst : ZeroFirst s a) (hstep : jobStep job s a = some t) :
    GatherOk job t := by
  cases a with
  | runJob =>
    cases runJobMove_of_step hstep with
    | @create i hpc hlt hok =>
      rw [Creation, hpc] at hc
      have hun : s.workers i = .uncreated := not_ne_iff.mp fun hne =>
        (hc.1 i).mp hne |>.false
      exact h.move rfl rfl rfl (by simp [hun]) (by simp) (by simp [hun, WorkerAt.Past])
        (by simp [WorkerAt.seen])
    | _ => exact h.congr (fun _ => rfl) rfl rfl
  | worker i =>
    cases workerMove_of_step hstep with
    | acquire hpc hlock =>
      refine h.take hpc hlock fun hi0 => ?_
      obtain ⟨hun, hacq⟩ := hfirst hi0 hpc
      have hfree := not_or.mp ((h.holds_iff 0).not.mp (by simp [hlock]))
      cases h0 : s.workers 0 with
      | uncreated => exact hun h0
      | acquiring => exact hacq h0
      | gathering => exact hfree.1 h0
      | holding => exact hfree.2 h0
      | _ => trivial
    | @insert word hpc hword =>
      obtain rfl := h.gathering i hpc
      have hnone : ∀ k, ¬ (s.workers k).Past := by
        intro k hk
        have h0 := h.first k (Or.inr hk)
        rw [hpc] at h0
        exact h0
      refine ⟨h.holds_iff, h.gathering, h.holding, h.first, ?_, fun h0 => absurd h0 (hnone 0),
        h.seen⟩
      obtain ⟨hlt, rfl⟩ := List.getElem?_eq_some_iff.mp hword
      exact List.concat_get_prefix h.filled hlt
    | gathered hpc hall hlock =>
      exact h.give (Or.inl hpc) hlock fun _ => h.filled.eq_of_length_le hall
    | release hpc hlock =>
      exact h.give (Or.inr hpc) hlock fun hi0 => absurd hi0 (h.holding i hpc)
    | combine hpc =>
      have hpast : (s.workers i).Past := by
        rw [hpc]
        trivial
      refine h.move rfl rfl rfl (by simp [hpc]) (by simp) (iff_of_true trivial hpast) ?_
      rintro _ ⟨⟩
      exact h.complete (h.first i (Or.inr hpast))
    | @emit subset hpc =>
      refine h.move rfl rfl rfl (by simp [hpc]) (by simp) (by simp [hpc, WorkerAt.Past]) ?_
      rintro _ ⟨⟩
      exact h.seen i subset (by rw [hpc]; rfl)
    | @finish subset hpc =>
      refine h.move rfl rfl rfl (by simp [hpc]) (by simp) (by simp [hpc, WorkerAt.Past]) ?_
      rintro _ ⟨⟩
      exact h.seen i subset (by rw [hpc]; rfl)

/-- In every run in which worker 0 is the first to take the lock, the lock is the barrier that
it is meant to be. -/
theorem workers_wait_for_the_gather_when_worker_zero_is_first (job : Job) (as : List JobAct)
    (h : Along (jobStep job) ZeroFirst .start as) :
    Always (jobStep job) (Barrier job) .start as := by
  refine always_of_along (I := fun s => Creation job s ∧ GatherOk job s) ?_ ?_
    ⟨creation_start job, gatherOk_start job⟩ h
  · rintro s a t ⟨hc, hg⟩ hfirst hstep
    exact ⟨creation_step hc hstep, gatherOk_step hc hg hfirst hstep⟩
  · rintro s ⟨_, hg⟩
    exact hg.barrier

/-- Two workers, and one word to gather. -/
def twoWorkers : Job := ⟨2, true, true, fun _ => false, [bytes "a"], fun _ _ => []⟩

theorem worker_one_waits_for_the_gather :
    Always (jobStep twoWorkers) (Barrier twoWorkers) .start
      [.runJob, .runJob, .runJob, .worker 0, .runJob, .worker 0, .worker 0, .worker 1, .worker 1,
        .worker 1] :=
  workers_wait_for_the_gather_when_worker_zero_is_first twoWorkers _ (by decide)

/-- Worker 0 is late, and worker 1 combines over an empty subset. -/
theorem worker_one_does_not_wait :
    ¬ ∀ (job : Job) (as : List JobAct), Always (jobStep job) (Barrier job) .start as := by
  intro hall
  have hlast := (hall twoWorkers [.runJob, .runJob, .runJob, .runJob, .worker 1, .worker 1,
    .worker 1]).of_run rfl
  exact hlast.released 1 (by decide) rfl

end anagram
