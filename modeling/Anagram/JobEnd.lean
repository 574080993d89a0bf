-- The end of RunJob. It joins seven handles, whatever the number of workers,
-- and after an error of pthread_create it joins none. The law: RunJob outlives
-- its workers exactly when no worker is created, or when there are seven and
-- all of them are.
import Anagram.RunJob

open interleaving

namespace anagram

def WorkerAt.Finished (w : WorkerAt) : Prop := ∃ subset, w = .finished subset

/-- `RunJob` joins only handles that were filled, it returns only after every worker it created
has finished, and after it has returned from its end the map has what each worker adds. -/
structure Outlives (job : Job) (s : JobState) : Prop where
  filled : s.main ≠ .undefined
  finished : ∀ ok, s.main = .returned ok → ∀ i, s.workers i ≠ .uncreated → (s.workers i).Finished
  contributed : s.main = .returned true → ∀ i < job.thread_tot, ∃ subset,
    s.workers i = .finished subset ∧ ∀ p ∈ job.contribution i subset, p ∈ s.anagrams

/-- No worker is created, or there are as many workers as joins and all of them are created. -/
def Job.Safe (job : Job) : Prop :=
  job.params_ok = false ∨ job.handles_ok = false ∨ job.create_error 0 = true ∨
    job.thread_tot = joinTot ∧ ∀ i < joinTot, job.create_error i = false

/-! ## The invariant -/

/-- The workers below the joins have finished. -/
def JoinOk (job : Job) (s : JobState) : Prop :=
  match s.main with
  | .joining k => k ≤ joinTot ∧ ∀ i < k, (s.workers i).Finished
  | .returned true => ∀ i < joinTot, (s.workers i).Finished
  | .undefined => job.thread_tot < joinTot
  | _ => True

/-- What a worker adds stays in the map. -/
def Contributed (job : Job) (s : JobState) : Prop :=
  ∀ i subset, s.workers i = .finishing subset ∨ s.workers i = .finished subset →
    ∀ p ∈ job.contribution i subset, p ∈ s.anagrams

theorem WorkerMove.finished {job : Job} {s t : JobState} {i : Nat} (h : WorkerMove job s i t)
    {j : Nat} (hj : (s.workers j).Finished) : (t.workers j).Finished := by
  by_cases hji : j = i
  · subst hji
    obtain ⟨subset, hj⟩ := hj
    cases h <;> simp_all
  · rwa [h.workers_ne hji]

theorem joinOk_step {job : Job} {s t : JobState} {a : JobAct} (hc : Creation job s)
    (hs : JoinOk job s) (h : jobStep job s a = some t) : JoinOk job t := by
  cases a with
  | worker i =>
    have hmove := workerMove_of_step h
    unfold JoinOk at hs ⊢
    rw [hmove.main_eq]
    split at hs
    · exact ⟨hs.1, fun j hj => hmove.finished (hs.2 j hj)⟩
    · exact fun j hj => hmove.finished (hs j hj)
    · exact hs
    · trivial
  | runJob =>
    cases runJobMove_of_step h with
    | created hpc hge => exact ⟨Nat.zero_le _, fun j hj => absurd hj (Nat.not_lt_zero j)⟩
    | @join k subset hpc hlt hfin =>
      rw [JoinOk, hpc] at hs
      refine ⟨hlt, fun j hj => ?_⟩
      rcases Nat.lt_succ_iff_lt_or_eq.mp hj with hj | rfl
      · exact hs.2 j hj
      · exact ⟨subset, hfin⟩
    | @join_unfilled k hpc hlt hun =>
      rw [Creation, hpc] at hc
      have hge : ¬ k < job.thread_tot := fun hk => (hc.1 k).mpr hk hun
      unfold JoinOk
      dsimp only
      omega
    | @joined k hpc hge =>
      rw [JoinOk, hpc] at hs
      exact fun j hj => hs.2 j (by omega)
    | _ => trivial

theorem contributed_step {job : Job} {s t : JobState} {a : JobAct} (hs : Contributed job s)
    (h : jobStep job s a = some t) : Contributed job t := by
  cases a with
  | runJob =>
    cases runJobMove_of_step h with
    | @create i hpc hlt hok =>
      intro j subset hj
      by_cases hji : j = i
      · subst hji
        simp at hj
      · exact hs j subset (by simpa [hji] using hj)
    | _ => exact hs
  | worker i =>
    intro j subset hj p hp
    have hmove := workerMove_of_step h
    by_cases hji : j = i
    · subst hji
      cases hmove with
      | acquire hpc =>
        simp only [setWorker_self] at hj
        split at hj <;> simp at hj
      | emit hpc =>
        simp only [setWorker_self, WorkerAt.finishing.injEq, reduceCtorEq, or_false] at hj
        subst hj
        exact List.mem_append_right _ hp
      | @finish subset' hpc =>
        simp only [setWorker_self, reduceCtorEq, WorkerAt.finished.injEq, false_or] at hj
        subst hj
        exact hs j _ (Or.inl hpc) p hp
      | insert hpc => simp [hpc] at hj
      | _ => simp at hj
    · rw [hmove.workers_ne hji] at hj
      have hmem := hs j subset hj p hp
      cases hmove with
      | emit => exact List.mem_append_left _ hmem
      | _ => exact hmem

/-- The job is safe, so nothing is left unfinished. -/
theorem outlives_of_safe {job : Job} (htot : 1 ≤ job.thread_tot) (hsafe : job.Safe)
    {s : JobState} (hc : Creation job s) (hj : JoinOk job s) (hcon : Contributed job s) :
    Outlives job s := by
  -- once a worker is created, only the last way of being safe is left
  have hseven : ∀ n, 0 < n → NoErrorBelow job n →
      job.thread_tot = joinTot ∧ ∀ i < joinTot, job.create_error i = false := by
    rintro n hn ⟨hp, hh, herr⟩
    have h0 := herr 0 hn
    rcases hsafe with h | h | h | h
    · simp [hp] at h
    · simp [hh] at h
    · simp [h0] at h
    · exact h
  have hend : s.main = .returned true → job.thread_tot = joinTot ∧
      CreatedBelow s job.thread_tot ∧ ∀ i < joinTot, (s.workers i).Finished := by
    intro hret
    rw [Creation, hret] at hc
    rw [JoinOk, hret] at hj
    exact ⟨(hseven _ htot hc.2).1, hc.1, hj⟩
  refine ⟨fun hun => ?_, fun ok hret i hi => ?_, fun hret i hi => ?_⟩
  · rw [Creation, hun] at hc
    rw [JoinOk, hun] at hj
    have heq := (hseven _ htot hc.2).1
    dsimp only at hj
    omega
  · cases ok with
    | true =>
      obtain ⟨heq, hbelow, hfin⟩ := hend hret
      exact hfin i (heq ▸ (hbelow i).mp hi)
    | false =>
      rw [Creation, hret] at hc
      rcases hc with hzero | ⟨n, hlt, hbelow, herr, hfail⟩
      · exact absurd ((hzero i).mp hi) (Nat.not_lt_zero i)
      · have hin := (hbelow i).mp hi
        obtain ⟨heq, hnone⟩ := hseven n (by omega) herr
        rw [hnone n (heq ▸ hlt)] at hfail
        cases hfail
  · obtain ⟨heq, _, hfin⟩ := hend hret
    obtain ⟨subset, hsub⟩ := hfin i (heq ▸ hi)
    exact ⟨subset, hsub, hcon i subset (Or.inr hsub)⟩

/-! ## What goes wrong otherwise -/

/-- The first `n` workers are created, and none of them has moved yet. -/
theorem run_create (job : Job) {n : Nat} (hn : n ≤ job.thread_tot) (h : NoErrorBelow job n) :
    ∃ as s, run (jobStep job) .start as = some s ∧ s.main = .creating n ∧
      (∀ i, s.workers i = if i < n then .acquiring else .uncreated) ∧
      s.gather_lock = none ∧ s.subset = [] := by
  obtain ⟨hp, hh, herr⟩ := h
  induction n with
  | zero =>
    refine ⟨[.runJob, .runJob], { JobState.start with main := .creating 0 }, ?_, rfl, ?_, rfl, rfl⟩
    · simp [run, jobStep, runJobStep, JobState.start, hp, hh]
    · intro i
      simp [JobState.start]
  | succ n ih =>
    obtain ⟨as, s, hrun, hmain, hworkers, hlock, hsub⟩ :=
      ih (by omega) fun i hi => herr i (by omega)
    have hstep : jobStep job s .runJob =
        some { s.setWorker n .acquiring with main := .creating (n + 1) } := by
      simp [jobStep, runJobStep, hmain, herr n (by omega), show n < job.thread_tot by omega]
    refine ⟨_, _, run_snoc hrun hstep, rfl, fun i => ?_, hlock, hsub⟩
    by_cases hi : i = n
    · subst hi
      simp
    · have hne : ({ s.setWorker n .acquiring with main := .creating (n + 1) } : JobState).workers i
          = s.workers i := setWorker_ne s hi _
      rw [hne, hworkers]
      split_ifs <;> first | rfl | omega

/-- Worker `i` can run to its end while nobody else moves, and leaves the lock free. -/
def CanFinish (job : Job) (s : JobState) (i : Nat) : Prop :=
  ∃ as t, run (jobStep job) s as = some t ∧ (t.workers i).Finished ∧ t.gather_lock = none ∧
    t.main = s.main ∧ ∀ j ≠ i, t.workers j = s.workers j

theorem canFinish_of_step {job : Job} {s t : JobState} {i : Nat}
    (h : jobStep job s (.worker i) = some t) (ht : CanFinish job t i) : CanFinish job s i := by
  obtain ⟨as, u, hrun, hfin, hlock, hmain, hworkers⟩ := ht
  have hmove := workerMove_of_step h
  exact ⟨.worker i :: as, u, (run_cons h).trans hrun, hfin, hlock, hmain.trans hmove.main_eq,
    fun j hj => (hworkers j hj).trans (hmove.workers_ne hj)⟩

theorem canFinish_past_gather (job : Job) {s : JobState} {i : Nat}
    (hi : s.workers i = .past_gather) (hlock : s.gather_lock = none) : CanFinish job s i := by
  apply canFinish_of_step (t := s.setWorker i (.combining s.subset))
  · simp [jobStep, jobWorkerStep, hi]
  apply canFinish_of_step (t := { s.setWorker i (.finishing s.subset) with
    anagrams := s.anagrams ++ job.contribution i s.subset })
  · simp [jobStep, jobWorkerStep, JobState.setWorker]
  apply canFinish_of_step (t := { s.setWorker i (.finished s.subset) with
    anagrams := s.anagrams ++ job.contribution i s.subset })
  · simp [jobStep, jobWorkerStep, JobState.setWorker]
  exact ⟨[], _, rfl, ⟨s.subset, setWorker_self ..⟩, hlock, rfl, fun _ _ => rfl⟩

theorem canFinish_gathering (job : Job) {s : JobState} {i : Nat} (hi : s.workers i = .gathering)
    (hlock : s.gather_lock = some i) : CanFinish job s i := by
  -- the words that are still to be inserted
  induction hn : job.gathered.length - s.subset.length generalizing s with
  | zero =>
    have hnone : job.gathered[s.subset.length]? = none := List.getElem?_eq_none (by omega)
    apply canFinish_of_step (t := { s.setWorker i .past_gather with gather_lock := none })
    · simp [jobStep, jobWorkerStep, hi, hnone, hlock, mutexStep]
    exact canFinish_past_gather job (setWorker_self ..) rfl
  | succ n ih =>
    have hlt : s.subset.length < job.gathered.length := by omega
    apply canFinish_of_step (t := { s with subset := s.subset ++ [job.gathered[s.subset.length]] })
    · simp [jobStep, jobWorkerStep, hi, hlt]
    refine ih (s := { s with subset := s.subset ++ [job.gathered[s.subset.length]] }) hi hlock ?_
    simp only [List.length_append, List.length_singleton]
    omega

/-- With the lock free, a worker that has just been created can run to its end. -/
theorem canFinish_acquiring (job : Job) {s : JobState} {i : Nat} (hi : s.workers i = .acquiring)
    (hlock : s.gather_lock = none) : CanFinish job s i := by
  apply canFinish_of_step (t := { s.setWorker i (if i = 0 then .gathering else .holding) with
    gather_lock := some i })
  · simp [jobStep, jobWorkerStep, hi, hlock, mutexStep]
  by_cases h0 : i = 0
  · subst h0
    exact canFinish_gathering job (by simp) rfl
  · apply canFinish_of_step (t := { s.setWorker i .past_gather with gather_lock := none })
    · simp [jobStep, jobWorkerStep, h0, mutexStep, JobState.setWorker]
    exact canFinish_past_gather job (setWorker_self ..) rfl

/-- After all workers are created, the first `k` of them can finish and be joined while the
others have not moved. -/
theorem run_joins {job : Job} (h : NoErrorBelow job job.thread_tot) {k : Nat} (hk : k ≤ joinTot)
    (hle : k ≤ job.thread_tot) :
    ∃ as s, run (jobStep job) .start as = some s ∧ s.main = .joining k ∧ s.gather_lock = none ∧
      ∀ i ≥ k, s.workers i = if i < job.thread_tot then .acquiring else .uncreated := by
  induction k with
  | zero =>
    obtain ⟨as, s, hrun, hmain, hworkers, hlock, _⟩ := run_create job le_rfl h
    have hstep : jobStep job s .runJob = some { s with main := .joining 0 } := by
      simp [jobStep, runJobStep, hmain]
    exact ⟨_, _, run_snoc hrun hstep, rfl, hlock, fun i _ => hworkers i⟩
  | succ k ih =>
    obtain ⟨as, s, hrun, hmain, hlock, hworkers⟩ := ih (by omega) (by omega)
    have hacq : s.workers k = .acquiring := by
      rw [hworkers k le_rfl, if_pos (by omega)]
    obtain ⟨bs, t, hrun2, ⟨subset, hfin⟩, hlock2, hmain2, hother⟩ :=
      canFinish_acquiring job hacq hlock
    have hstep : jobStep job t .runJob = some { t with main := .joining (k + 1) } := by
      simp [jobStep, runJobStep, hmain2, hmain, hfin, show k < joinTot by omega]
    refine ⟨_, _, run_snoc ((run_append hrun).trans hrun2) hstep, rfl, hlock2, fun i hi => ?_⟩
    exact (hother i (by omega)).trans (hworkers i (by omega))

/-- A job that is not safe has a run in which `RunJob` does not outlive its workers. -/
theorem exists_run_of_unsafe {job : Job} (h : ¬ job.Safe) :
    ∃ as s, run (jobStep job) .start as = some s ∧ ¬ Outlives job s := by
  obtain ⟨hp, hh, h0, hrest⟩ : job.params_ok = true ∧ job.handles_ok = true ∧
      job.create_error 0 = false ∧
      (job.thread_tot = joinTot → ∃ i < joinTot, job.create_error i = true) := by
    simpa [Job.Safe] using h
  by_cases herr : ∃ n < job.thread_tot, job.create_error n = true
  · -- `RunJob` returns at the first error, and worker 0 is still running
    have hfirst := Nat.find_spec herr
    have hbefore : NoErrorBelow job (Nat.find herr) := by
      refine ⟨hp, hh, fun i hi => eq_false_of_ne_true fun he => ?_⟩
      exact Nat.find_min herr hi ⟨by omega, he⟩
    have hpos : 0 < Nat.find herr := by
      apply Nat.pos_of_ne_zero
      intro hz
      rw [hz, h0] at hfirst
      cases hfirst.2
    obtain ⟨as, s, hrun, hmain, hworkers, _, _⟩ := run_create job hfirst.1.le hbefore
    have hstep : jobStep job s .runJob = some { s with main := .returned false } := by
      simp [jobStep, runJobStep, hmain, hfirst.1, hfirst.2]
    refine ⟨_, _, run_snoc hrun hstep, fun hout => ?_⟩
    have hzero : s.workers 0 = .acquiring := by rw [hworkers, if_pos hpos]
    obtain ⟨subset, hfin⟩ := hout.finished false rfl 0 (by simp [hzero])
    simp [hzero] at hfin
  · have hnone : NoErrorBelow job job.thread_tot :=
      ⟨hp, hh, fun i hi => eq_false_of_ne_true fun he => herr ⟨i, hi, he⟩⟩
    have hne : job.thread_tot ≠ joinTot := fun heq => by
      obtain ⟨i, hi, he⟩ := hrest heq
      exact herr ⟨i, heq ▸ hi, he⟩
    rcases Nat.lt_or_gt_of_ne hne with hlt | hgt
    · -- fewer workers than joins: a join of a handle that was never filled
      obtain ⟨as, s, hrun, hmain, _, hworkers⟩ := run_joins hnone hlt.le le_rfl
      have hstep : jobStep job s .runJob = some { s with main := .undefined } := by
        simp [jobStep, runJobStep, hmain, hlt, hworkers job.thread_tot le_rfl]
      exact ⟨_, _, run_snoc hrun hstep, fun hout => hout.filled rfl⟩
    · -- more workers than joins: the last ones are not waited for
      obtain ⟨as, s, hrun, hmain, _, hworkers⟩ := run_joins hnone le_rfl hgt.le
      have hstep : jobStep job s .runJob = some { s with main := .returned true } := by
        simp [jobStep, runJobStep, hmain]
      refine ⟨_, _, run_snoc hrun hstep, fun hout => ?_⟩
      have hacq : s.workers joinTot = .acquiring := by rw [hworkers _ le_rfl, if_pos hgt]
      obtain ⟨subset, hfin⟩ := hout.finished true rfl joinTot (by simp [hacq])
      simp [hacq] at hfin

/-- `RunJob` outlives its workers in every run exactly when the job creates no worker at all, or
creates as many as it joins. -/
theorem run_job_outlives_its_workers_iff_the_job_is_safe (job : Job) (htot : 1 ≤ job.thread_tot) :
    (∀ as, Always (jobStep job) (Outlives job) .start as) ↔ job.Safe := by
  constructor
  · intro hall
    by_contra hsafe
    obtain ⟨as, s, hrun, hout⟩ := exists_run_of_unsafe hsafe
    exact hout ((hall as).of_run hrun)
  · intro hsafe as
    refine always_of_along (P := fun _ _ => True)
      (I := fun s => Creation job s ∧ JoinOk job s ∧ Contributed job s) ?_ ?_ ?_ ?_
    · rintro s a t ⟨hc, hj, hcon⟩ _ h
      exact ⟨creation_step hc h, joinOk_step hc hj h, contributed_step hcon h⟩
    · rintro s ⟨hc, hj, hcon⟩
      exact outlives_of_safe htot hsafe hc hj hcon
    · exact ⟨creation_start job, trivial, fun i subset hi => by simp [JobState.start] at hi⟩
    · exact along_of_all fun _ _ => trivial

/-- Seven workers, all of them created. -/
def sevenWorkers : Job :=
  ⟨7, true, true, fun _ => false, [bytes "a"], fun i _ => [[UInt8.ofNat i]]⟩

theorem seven_workers_are_waited_for :
    (∀ as, Always (jobStep sevenWorkers) (Outlives sevenWorkers) .start as) ↔ sevenWorkers.Safe :=
  run_job_outlives_its_workers_iff_the_job_is_safe sevenWorkers (by decide)

/-- With eight workers, the last one is not waited for. -/
theorem the_eighth_worker_is_not_waited_for :
    ¬ ∀ job : Job, 1 ≤ job.thread_tot →
      ∀ as, Always (jobStep job) (Outlives job) .start as := by
  intro hall
  have hunsafe : ¬ Job.Safe ⟨8, true, true, fun _ => false, [], fun _ _ => []⟩ := by
    simp [Job.Safe, joinTot]
  obtain ⟨as, s, hrun, hout⟩ := exists_run_of_unsafe hunsafe
  exact hout ((hall _ (by decide) as).of_run hrun)

end anagram
