-- A job with seven workers ends. Every step takes from what is left to do, so no
-- run goes on for ever, and as long as RunJob has not returned, someone can
-- move: the holder of the gather lock, worker 0 when it is free, or the worker
-- that RunJob waits for.
import Anagram.SearchJob

open interleaving

namespace anagram

/-! ## What is left to do -/

/-- The steps that `RunJob` has before it, at most. -/
def mainLeft (thread_tot : Nat) : MainAt → Nat
  | .params => thread_tot + 12
  | .handles => thread_tot + 11
  | .creating i => (thread_tot - i) + 10
  | .joining k => (joinTot - k) + 1
  | .returned _ => 0
  | .undefined => 0

/-- The changes of place that a worker has before it. -/
def WorkerAt.left : WorkerAt → Nat
  | .uncreated => 6
  | .acquiring => 5
  | .gathering => 4
  | .holding => 4
  | .past_gather => 3
  | .combining _ => 2
  | .finishing _ => 1
  | .finished _ => 0

/-- What is left to do for `RunJob` and the workers, to gather, and to write. -/
def stepsLeft (job : SearchJob) (s : WriteState) : Nat :=
  mainLeft job.thread_tot s.control.main +
    ∑ i ∈ Finset.range job.thread_tot, (s.control.workers i).left +
    (job.gathered.length - s.control.subset.length) + (job.singles.length - s.singles_written) +
    ∑ i ∈ Finset.range job.thread_tot, ((job.phrases i job.gathered).length - s.written i)

/-- At the start, `RunJob` and the workers have their own steps before them, and all the rest is
words to gather and to write. -/
theorem stepsLeft_start (job : SearchJob) : stepsLeft job .start =
    7 * job.thread_tot + 12 + job.gathered.length + job.writes.length := by
  have hlength : job.writes.length = job.singles.length +
      ∑ i ∈ Finset.range job.thread_tot, (job.phrases i job.gathered).length := by
    have hcard := congrArg Multiset.card (coe_writes job)
    simpa using hcard
  simp only [stepsLeft, WriteState.start, JobState.start, mainLeft, WorkerAt.left,
    List.length_nil, Finset.sum_const, Finset.card_range, smul_eq_mul, hlength, Nat.sub_zero]
  omega

/-- A worker that goes on has less before it, and the others have what they had. -/
theorem sum_left_lt {s c : JobState} {i n : Nat} {w : WorkerAt} (hi : i < n)
    (hworkers : c.workers = (s.setWorker i w).workers) (hlt : w.left < (s.workers i).left) :
    ∑ j ∈ Finset.range n, (c.workers j).left < ∑ j ∈ Finset.range n, (s.workers j).left := by
  apply Finset.sum_lt_sum
  · intro j _
    by_cases hj : j = i
    · subst hj
      rw [hworkers, setWorker_self]
      exact hlt.le
    · rw [hworkers, setWorker_ne _ hj]
  · refine ⟨i, Finset.mem_range.mpr hi, ?_⟩
    rw [hworkers, setWorker_self]
    exact hlt

/-- A worker that writes has one phrase less before it. -/
theorem sum_unwritten_lt (length : Nat → Nat) {written : Nat → Nat} {i n : Nat} (hi : i < n)
    (hlt : written i < length i) :
    ∑ j ∈ Finset.range n, (length j - Function.update written i (written i + 1) j) <
      ∑ j ∈ Finset.range n, (length j - written j) := by
  apply Finset.sum_lt_sum
  · intro j _
    by_cases hj : j = i
    · subst hj
      rw [Function.update_self]
      omega
    · rw [Function.update_of_ne hj]
  · refine ⟨i, Finset.mem_range.mpr hi, ?_⟩
    rw [Function.update_self]
    omega

theorem stepsLeft_runJob {job : SearchJob} {s : WriteState} {c : JobState}
    (hc : ControlOk job s.control) (hmove : RunJobMove job.toJob s.control c) :
    stepsLeft job { s with control := c } < stepsLeft job s := by
  unfold stepsLeft
  cases hmove with
  | @create i hpc hlt hok =>
    have hun : s.control.workers i = .uncreated := hc.creation.uncreated hpc
    have hlt' : i < job.thread_tot := hlt
    have hsum := sum_left_lt (s := s.control) (w := .acquiring) hlt' rfl (by rw [hun]; decide)
    simp only [hpc, mainLeft]
    change _ + ∑ j ∈ Finset.range job.thread_tot,
      ((s.control.setWorker i .acquiring).workers j).left + _ + _ + _ < _
    simp only [JobState.setWorker] at hsum ⊢
    omega
  | @join k subset hpc hlt hfin =>
    simp only [hpc, mainLeft]
    omega
  | _ =>
    simp only [*, mainLeft, joinTot]
    omega

theorem stepsLeft_worker {job : SearchJob} {s : WriteState} {i : Nat} {c : JobState}
    (hc : ControlOk job s.control) (hmove : WorkerMove job.toJob s.control i c) :
    stepsLeft job { s with control := c } < stepsLeft job s := by
  have hi : i < job.thread_tot := hc.creation.lt hmove.created
  have hmain := hmove.main_eq
  -- a worker that changes its place leaves the subset as it is
  have hplace : ∀ w : WorkerAt, c.workers = (s.control.setWorker i w).workers →
      w.left < (s.control.workers i).left → c.subset = s.control.subset →
      stepsLeft job { s with control := c } < stepsLeft job s := by
    intro w hworkers hlt hsubset
    have hsum := sum_left_lt hi hworkers hlt
    simp only [stepsLeft, hmain, hsubset]
    omega
  cases hmove with
  | acquire hpc hlock => exact hplace _ rfl (by rw [hpc]; split_ifs <;> decide) rfl
  | insert hpc hword =>
    obtain ⟨hlt, -⟩ := List.getElem?_eq_some_iff.mp hword
    have hlt' : s.control.subset.length < job.gathered.length := hlt
    simp only [stepsLeft, List.length_append, List.length_singleton]
    omega
  | gathered hpc hall hlock => exact hplace _ rfl (by rw [hpc]; decide) rfl
  | release hpc hlock => exact hplace _ rfl (by rw [hpc]; decide) rfl
  | combine hpc => exact hplace _ rfl (by rw [hpc]; exact Nat.lt_succ_self _) rfl
  | emit hpc => exact hplace _ rfl (by rw [hpc]; exact Nat.lt_succ_self _) rfl
  | finish hpc => exact hplace _ rfl (by rw [hpc]; exact Nat.lt_succ_self _) rfl

theorem stepsLeft_step {job : SearchJob} {s t : WriteState} {a : WriteAct}
    (hc : ControlOk job s.control) (hstep : writeStep job s a = some t) :
    stepsLeft job t < stepsLeft job s := by
  cases writeMove_of_step hstep with
  | @move a c hready hmove =>
    cases a with
    | runJob => exact stepsLeft_runJob hc (runJobMove_of_step hmove)
    | worker i => exact stepsLeft_worker hc (workerMove_of_step hmove)
  | single hpc hx =>
    obtain ⟨hlt, -⟩ := List.getElem?_eq_some_iff.mp hx
    simp only [stepsLeft]
    omega
  | @phrase i x subset hpc hx =>
    obtain rfl : subset = job.gathered := hc.gather.seen i subset (by rw [hpc]; rfl)
    obtain ⟨hlt, -⟩ := List.getElem?_eq_some_iff.mp hx
    have hi : i < job.thread_tot := hc.creation.lt (by simp [hpc])
    have hsum := sum_unwritten_lt (fun j => (job.phrases j job.gathered).length) hi hlt
    simp only [stepsLeft]
    omega

/-! ## Someone can move -/

/-- The job has the workers that it joins, nothing fails, and every search of the complete subset
ends. -/
structure Smooth (job : SearchJob) : Prop where
  thread_tot : job.thread_tot = joinTot
  params_ok : job.params_ok = true
  handles_ok : job.handles_ok = true
  created : ∀ i < joinTot, job.create_error i = false
  found : ∀ i < joinTot, (job.found i job.gathered).isOk = true

/-- A step is possible that keeps worker 0 the first to take the lock. -/
def CanMove (job : SearchJob) (s : WriteState) : Prop :=
  ∃ a t, TakesFirst s a ∧ writeStep job s a = some t

section
variable {job : SearchJob} {s : WriteState} (hon : s.control.main.isOver = false)
include hon

theorem canMove_runJob (h : (runJobStep job.toJob s.control).isSome) : CanMove job s := by
  obtain ⟨c, hc⟩ := Option.isSome_iff_exists.mp h
  exact ⟨.move .runJob, { s with control := c }, trivial, by
    simp [writeStep, hon, MayMove, jobStep, hc]⟩

theorem canMove_worker (i : Nat) (hfirst : ZeroFirst s.control (.worker i))
    (hready : MayMove job s (.worker i)) (h : (jobWorkerStep job.toJob s.control i).isSome) :
    CanMove job s := by
  obtain ⟨c, hc⟩ := Option.isSome_iff_exists.mp h
  exact ⟨.move (.worker i), { s with control := c }, hfirst, by
    simp [writeStep, hon, hready, jobStep, hc]⟩

theorem canMove_write (i : Nat) (h : (workerWrite job s i).isSome) : CanMove job s := by
  obtain ⟨t, ht⟩ := Option.isSome_iff_exists.mp h
  exact ⟨.write i, t, trivial, by simp [writeStep, hon, ht]⟩

/-- Worker 0 inserts, writes, or leaves the gather block. -/
theorem canMove_gathering (hok : WriteOk job s) {i : Nat}
    (hi : s.control.workers i = .gathering) : CanMove job s := by
  have hlock : s.control.gather_lock = some i := (hok.control.gather.holds_iff i).mpr (Or.inl hi)
  have hfirst : ZeroFirst s.control (.worker i) := fun _ hacq => by simp [hi] at hacq
  rcases Nat.lt_or_ge s.control.subset.length job.gathered.length with hsubset | hsubset
  · have hword : job.toJob.gathered[s.control.subset.length]? = some _ :=
      List.getElem?_eq_getElem hsubset
    apply canMove_worker hon i hfirst
    · simp [MayMove, hi, hsubset]
    · simp [jobWorkerStep, hi, hword]
  · rcases Nat.lt_or_ge s.singles_written job.singles.length with hsingles | hsingles
    · apply canMove_write hon i
      simp [workerWrite, hi, hsingles]
    · have hnone : job.toJob.gathered[s.control.subset.length]? = none :=
        List.getElem?_eq_none hsubset
      apply canMove_worker hon i hfirst
      · simp [MayMove, hi, hsingles]
      · simp [jobWorkerStep, hi, hnone, hlock, mutexStep]

/-- The holder of the lock releases it. -/
theorem canMove_holding (hok : WriteOk job s) {i : Nat}
    (hi : s.control.workers i = .holding) : CanMove job s := by
  have hlock : s.control.gather_lock = some i := (hok.control.gather.holds_iff i).mpr (Or.inr hi)
  apply canMove_worker hon i
  · exact fun _ hacq => by simp [hi] at hacq
  · simp [MayMove, hi]
  · simp [jobWorkerStep, hi, hlock, mutexStep]

/-- A worker takes the lock when it is free, and worker 0 does so first. -/
theorem canMove_acquiring (hok : WriteOk job s) {i : Nat}
    (hzero : s.control.workers 0 ≠ .uncreated) (hi : s.control.workers i = .acquiring) :
    CanMove job s := by
  cases hlock : s.control.gather_lock with
  | some j =>
    rcases (hok.control.gather.holds_iff j).mp hlock with hj | hj
    · exact canMove_gathering hon hok hj
    · exact canMove_holding hon hok hj
  | none =>
    have hacquires : ∀ k, s.control.workers k = .acquiring → ZeroFirst s.control (.worker k) →
        CanMove job s := by
      intro k hk hfirst
      apply canMove_worker hon k hfirst
      · simp [MayMove, hk]
      · simp [jobWorkerStep, hk, hlock, mutexStep]
    by_cases h0 : s.control.workers 0 = .acquiring
    · exact hacquires 0 h0 fun hne => absurd rfl hne
    · exact hacquires i hi fun _ _ => ⟨hzero, h0⟩

/-- A worker that combines writes its next phrase, or is done. -/
theorem canMove_combining {i : Nat} {subset : List Text}
    (hi : s.control.workers i = .combining subset) (hfound : (job.found i subset).isOk = true) :
    CanMove job s := by
  rcases Nat.lt_or_ge (s.written i) (job.phrases i subset).length with hlt | hge
  · apply canMove_write hon i
    simp [workerWrite, hi, hlt]
  · apply canMove_worker hon i
    · exact fun _ hacq => by simp [hi] at hacq
    · simp [MayMove, hi, hfound, hge]
    · simp [jobWorkerStep, hi]

/-- While a worker has not finished, it can move, or whoever it waits for. -/
theorem canMove_of_unfinished (hok : WriteOk job s) (hsmooth : Smooth job)
    (hzero : s.control.workers 0 ≠ .uncreated) {i : Nat}
    (hcreated : s.control.workers i ≠ .uncreated) (hunfinished : ¬ (s.control.workers i).Finished) :
    CanMove job s := by
  have hi : i < joinTot := hsmooth.thread_tot ▸ hok.control.creation.lt hcreated
  have hplain : s.control.workers i ≠ .acquiring → ZeroFirst s.control (.worker i) :=
    fun hne _ hacq => absurd hacq hne
  cases hw : s.control.workers i with
  | uncreated => exact absurd hw hcreated
  | acquiring => exact canMove_acquiring hon hok hzero hw
  | gathering => exact canMove_gathering hon hok hw
  | holding => exact canMove_holding hon hok hw
  | past_gather =>
    exact canMove_worker hon i (hplain (by simp [hw])) (by simp [MayMove, hw])
      (by simp [jobWorkerStep, hw])
  | combining subset =>
    obtain rfl : subset = job.gathered := hok.control.gather.seen i subset (by rw [hw]; rfl)
    exact canMove_combining hon hw (hsmooth.found i hi)
  | finishing subset =>
    exact canMove_worker hon i (hplain (by simp [hw])) (by simp [MayMove, hw])
      (by simp [jobWorkerStep, hw])
  | finished subset => exact absurd ⟨subset, hw⟩ hunfinished

end

section
variable {job : SearchJob} {s : WriteState}

/-- `RunJob` has not failed. -/
def NotFailed (s : WriteState) : Prop := s.control.main ≠ .returned false

theorem notFailed_step {t : WriteState} {a : WriteAct} (hsmooth : Smooth job) (h : NotFailed s)
    (hstep : writeStep job s a = some t) : NotFailed t := by
  cases writeMove_of_step hstep with
  | single | phrase => exact h
  | @move a c hready hmove =>
    unfold NotFailed at h ⊢
    cases a with
    | worker i =>
      rw [(workerMove_of_step hmove).main_eq]
      exact h
    | runJob =>
      cases runJobMove_of_step hmove with
      | params_fail hpc hfail =>
        have hfail' : job.params_ok = false := hfail
        rw [hsmooth.params_ok] at hfail'
        cases hfail'
      | handles_fail hpc hfail =>
        have hfail' : job.handles_ok = false := hfail
        rw [hsmooth.handles_ok] at hfail'
        cases hfail'
      | @create_fail i hpc hlt hfail =>
        have hfail' : job.create_error i = true := hfail
        have hlt' : i < joinTot := hsmooth.thread_tot ▸ hlt
        rw [hsmooth.created i hlt'] at hfail'
        cases hfail'
      | _ => simp

/-- As long as it has not returned, it is not over. -/
theorem not_over_of_not_returned (hok : WriteOk job s) (hsmooth : Smooth job) (h : NotFailed s)
    (hmain : s.control.main ≠ .returned true) : s.control.main.isOver = false := by
  cases hpc : s.control.main with
  | returned ok =>
    cases ok with
    | true => exact absurd hpc hmain
    | false => exact absurd hpc h
  | undefined =>
    have hjoin := hok.control.join
    rw [JoinOk, hpc] at hjoin
    have hlt : job.thread_tot < joinTot := hjoin
    exact absurd hsmooth.thread_tot hlt.ne
  | _ => rfl

/-- And someone can move. -/
theorem canMove_of_not_returned (hok : WriteOk job s) (hsmooth : Smooth job) (h : NotFailed s)
    (hmain : s.control.main ≠ .returned true) : CanMove job s := by
  have hon := not_over_of_not_returned hok hsmooth h hmain
  have hcreation := hok.control.creation
  cases hpc : s.control.main with
  | params =>
    apply canMove_runJob hon
    simp [runJobStep, hpc]
  | handles =>
    apply canMove_runJob hon
    simp [runJobStep, hpc]
  | creating i =>
    apply canMove_runJob hon
    rcases Nat.lt_or_ge i job.thread_tot with hlt | hge
    · have hok' : job.toJob.create_error i = false := hsmooth.created i (hsmooth.thread_tot ▸ hlt)
      simp [runJobStep, hpc, hok', show i < job.toJob.thread_tot from hlt]
    · simp [runJobStep, hpc, show ¬ i < job.toJob.thread_tot from Nat.not_lt.mpr hge]
  | joining k =>
    rw [Creation, hpc] at hcreation
    rcases Nat.lt_or_ge k joinTot with hlt | hge
    · have hcreated : ∀ i < joinTot, s.control.workers i ≠ .uncreated := fun i hi =>
        (hcreation.1 i).mpr (show i < job.thread_tot from hsmooth.thread_tot ▸ hi)
      by_cases hfin : (s.control.workers k).Finished
      · obtain ⟨subset, hfin⟩ := hfin
        apply canMove_runJob hon
        simp [runJobStep, hpc, hlt, hfin]
      · exact canMove_of_unfinished hon hok hsmooth (hcreated 0 (by decide)) (hcreated k hlt) hfin
    · apply canMove_runJob hon
      simp [runJobStep, hpc, Nat.not_lt.mpr hge]
  | returned ok =>
    rw [hpc] at hon
    cases hon
  | undefined =>
    rw [hpc] at hon
    cases hon

end

/-! ## Every run ends -/

section
variable {job : SearchJob} (hsmooth : Smooth job)
include hsmooth

/-- A step keeps what holds of every state, and takes from what is left. -/
theorem smooth_step : ∀ s a t, WriteOk job s ∧ NotFailed s → TakesFirst s a →
    writeStep job s a = some t →
      (WriteOk job t ∧ NotFailed t) ∧ stepsLeft job t < stepsLeft job s := by
  rintro s a t ⟨hok, hnot⟩ hp h
  exact ⟨⟨writeOk_step hok hp h, notFailed_step hsmooth hnot h⟩, stepsLeft_step hok.control h⟩

omit hsmooth in
theorem smooth_start : WriteOk job .start ∧ NotFailed .start :=
  ⟨writeOk_start job, by simp [NotFailed, WriteState.start, JobState.start]⟩

theorem smooth_run {as : List WriteAct} (hfirst : Along (writeStep job) TakesFirst .start as)
    {s : WriteState} (hrun : run (writeStep job) .start as = some s) :
    WriteOk job s ∧ NotFailed s :=
  (always_of_along (fun s a t h hp ht => (smooth_step hsmooth s a t h hp ht).1) (fun _ h => h)
    smooth_start hfirst).of_run hrun

/-- From any of these states, `RunJob` can be made to return. -/
theorem can_return {s : WriteState} (h : WriteOk job s ∧ NotFailed s) :
    ∃ bs t, run (writeStep job) s bs = some t ∧ Along (writeStep job) TakesFirst s bs ∧
      t.control.main = .returned true := by
  refine exists_run_to (smooth_step hsmooth) ?_ h
  rintro s ⟨hok, hnot⟩ hmain
  exact canMove_of_not_returned hok hsmooth hnot hmain

theorem length_le_of_run {as : List WriteAct}
    (hfirst : Along (writeStep job) TakesFirst .start as) {s : WriteState}
    (hrun : run (writeStep job) .start as = some s) :
    as.length ≤ 7 * job.thread_tot + 12 + job.gathered.length + job.writes.length := by
  have hle := length_add_rank_le (smooth_step hsmooth) smooth_start hfirst hrun
  rw [stepsLeft_start] at hle
  omega

end

/-- A job with seven workers in which nothing fails ends, as long as worker 0 is the first to take
the gather lock. However its steps have come so far, they are no more than there are steps for
each worker, words to gather and phrases to write, and they can be continued until `RunJob`
returns. To take a lock is one step, as is a write, so the turns of a waiting loop do not count. -/
theorem every_run_of_a_smooth_job_can_only_end_with_a_return (job : SearchJob)
    (hsmooth : Smooth job) (as : List WriteAct)
    (hfirst : Along (writeStep job) TakesFirst .start as) (s : WriteState)
    (hrun : run (writeStep job) .start as = some s) :
    as.length ≤ 7 * job.thread_tot + 12 + job.gathered.length + job.writes.length ∧
    ∃ bs t, run (writeStep job) s bs = some t ∧ Along (writeStep job) TakesFirst s bs ∧
      t.control.main = .returned true :=
  ⟨length_le_of_run hsmooth hfirst hrun, can_return hsmooth (smooth_run hsmooth hfirst hrun)⟩

/-- Seven workers, after the first twenty of their steps. -/
theorem seven_searches_end :
    ∃ s, run (writeStep sevenSearches) .start (stepsInTurn.take 20) = some s ∧
      ∃ bs t, run (writeStep sevenSearches) s bs = some t ∧ t.control.main = .returned true := by
  have hsome : (run (writeStep sevenSearches) .start (stepsInTurn.take 20)).isSome := by
    decide +kernel
  obtain ⟨s, hrun⟩ := Option.isSome_iff_exists.mp hsome
  have hsmooth : Smooth sevenSearches := ⟨rfl, rfl, rfl, fun _ _ => rfl, fun _ _ => rfl⟩
  obtain ⟨-, bs, t, hend, -, hret⟩ := every_run_of_a_smooth_job_can_only_end_with_a_return
    sevenSearches hsmooth (stepsInTurn.take 20) (by decide +kernel) s hrun
  exact ⟨s, hrun, bs, t, hend, hret⟩

end anagram
