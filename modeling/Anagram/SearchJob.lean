-- RunJob and its workers with what they write (main.cc). Worker 0 writes the
-- anagrams of one word while it gathers the subset, and then each worker writes
-- the phrases that its search finds, one at a time. All locks are mutexes, and a
-- write is one step, for the code holds one for it: `subset_lock` for the map, or
-- the lock of the queue. A run is followed until RunJob is over. The law: whatever
-- the order of the steps, nothing is lost and nothing is written twice.
import Anagram.GatherBarrier
import Anagram.JobEnd

open interleaving

namespace anagram

/-! ## The job -/

/-- What a job is given. `singles` are the anagrams of one word in the order in which worker 0
comes to them, and `found` is what the search of a worker finds in a subset, in its order. -/
structure SearchJob where
  thread_tot : Nat
  params_ok : Bool
  handles_ok : Bool
  create_error : Nat → Bool
  gathered : List Text
  singles : List Text
  found : Nat → List Text → Run (List Text)

/-- The phrases of a worker. A search that fails gives none, and its worker never moves on. -/
def SearchJob.phrases (job : SearchJob) (i : Nat) (subset : List Text) : List Text :=
  (job.found i subset).toOption.getD []

/-- The job as its control sees it, where each worker adds its phrases at once. -/
def SearchJob.toJob (job : SearchJob) : Job :=
  ⟨job.thread_tot, job.params_ok, job.handles_ok, job.create_error, job.gathered, job.phrases⟩

/-- The state of the job: its control, how many anagrams of one word are written and how many
phrases of each worker, and all writes so far, oldest first. -/
structure WriteState where
  control : JobState
  singles_written : Nat
  written : Nat → Nat
  log : List Text

inductive WriteAct
  | move (a : JobAct)
  | write (i : Nat)
deriving DecidableEq

def WriteState.start : WriteState := ⟨.start, 0, fun _ => 0, []⟩

/-- `RunJob` has returned, or has joined a handle that was never filled. The subset and the queue
are its own, so what the workers do from then on has no meaning. -/
def MainAt.isOver : MainAt → Bool
  | .returned _ => true
  | .undefined => true
  | _ => false

/-- A worker leaves the gather block after the last anagram of one word, and its search after the
last phrase. -/
def MayMove (job : SearchJob) (s : WriteState) : JobAct → Prop
  | .runJob => True
  | .worker i => match s.control.workers i with
    | .gathering =>
      s.control.subset.length < job.gathered.length ∨ job.singles.length ≤ s.singles_written
    | .combining subset => (job.found i subset).isOk = true ∧
      (job.phrases i subset).length ≤ s.written i
    | _ => True

instance (job : SearchJob) (s : WriteState) (a : JobAct) : Decidable (MayMove job s a) := by
  unfold MayMove
  split
  · infer_instance
  · split <;> infer_instance

/-- The next write of a worker. -/
def workerWrite (job : SearchJob) (s : WriteState) (i : Nat) : Option WriteState :=
  match s.control.workers i with
  | .gathering => (job.singles[s.singles_written]?).map fun x =>
    { s with singles_written := s.singles_written + 1, log := s.log ++ [x] }
  | .combining subset => ((job.phrases i subset)[s.written i]?).map fun x =>
    { s with written := Function.update s.written i (s.written i + 1), log := s.log ++ [x] }
  | _ => none

def writeStep (job : SearchJob) (s : WriteState) (a : WriteAct) : Option WriteState :=
  if s.control.main.isOver then none
  else match a with
    | .move a =>
      if MayMove job s a then (jobStep job.toJob s.control a).map fun c => { s with control := c }
      else none
    | .write i => workerWrite job s i

/-- Worker 0 is the first to take the gather lock. -/
def TakesFirst (s : WriteState) : WriteAct → Prop
  | .move a => ZeroFirst s.control a
  | .write _ => True

instance (s : WriteState) : (a : WriteAct) → Decidable (TakesFirst s a)
  | .move a => inferInstanceAs (Decidable (ZeroFirst s.control a))
  | .write _ => isTrue trivial

/-! ## What one step does -/

/-- All that a step can do. -/
inductive WriteMove (job : SearchJob) (s : WriteState) : WriteAct → WriteState → Prop
  | move {a : JobAct} {c : JobState} (hready : MayMove job s a)
      (hstep : jobStep job.toJob s.control a = some c) :
      WriteMove job s (.move a) { s with control := c }
  | single {i : Nat} {x : Text} (h : s.control.workers i = .gathering)
      (hx : job.singles[s.singles_written]? = some x) :
      WriteMove job s (.write i)
        { s with singles_written := s.singles_written + 1, log := s.log ++ [x] }
  | phrase {i : Nat} {x : Text} {subset : List Text}
      (h : s.control.workers i = .combining subset)
      (hx : (job.phrases i subset)[s.written i]? = some x) :
      WriteMove job s (.write i)
        { s with written := Function.update s.written i (s.written i + 1), log := s.log ++ [x] }

theorem writeMove_of_step {job : SearchJob} {s t : WriteState} {a : WriteAct}
    (h : writeStep job s a = some t) : WriteMove job s a t := by
  unfold writeStep at h
  split_ifs at h with hover
  cases a with
  | move a =>
    dsimp only at h
    split_ifs at h with hready
    obtain ⟨c, hc, rfl⟩ := Option.map_eq_some_iff.mp h
    exact .move hready hc
  | write i =>
    unfold workerWrite at h
    dsimp only at h
    split at h
    · obtain ⟨x, hx, rfl⟩ := Option.map_eq_some_iff.mp h
      exact .single ‹_› hx
    · obtain ⟨x, hx, rfl⟩ := Option.map_eq_some_iff.mp h
      exact .phrase ‹_› hx
    · cases h

/-- There is a step only before `RunJob` is over. -/
theorem not_over_of_step {job : SearchJob} {s t : WriteState} {a : WriteAct}
    (h : writeStep job s a = some t) : s.control.main.isOver = false := by
  unfold writeStep at h
  split_ifs at h with hover
  exact eq_false_of_ne_true hover

/-! ## The control -/

/-- What holds of the control, when worker 0 takes the lock first. -/
structure ControlOk (job : SearchJob) (c : JobState) : Prop where
  creation : Creation job.toJob c
  gather : GatherOk job.toJob c
  join : JoinOk job.toJob c

theorem controlOk_start (job : SearchJob) : ControlOk job .start :=
  ⟨creation_start _, gatherOk_start _, trivial⟩

theorem controlOk_step {job : SearchJob} {s t : WriteState} {a : WriteAct}
    (hs : ControlOk job s.control) (hfirst : TakesFirst s a) (h : writeStep job s a = some t) :
    ControlOk job t.control := by
  cases writeMove_of_step h with
  | move hready hstep =>
    exact ⟨creation_step hs.creation hstep, gatherOk_step hs.creation hs.gather hfirst hstep,
      joinOk_step hs.creation hs.join hstep⟩
  | single hpc hx => exact hs
  | phrase hpc hx => exact hs

/-! ## The writes -/

/-- The part of its phrases that a worker has written. -/
def writtenPart (job : SearchJob) (s : WriteState) (i : Nat) : List Text :=
  (job.phrases i job.gathered).take (s.written i)

/-- The writes so far are, in some order, the first anagrams of one word and the first phrases of
each worker. A worker that has not begun its search has written no phrase, and one that is done
has written all. -/
structure LogOk (job : SearchJob) (s : WriteState) : Prop where
  log_eq : (s.log : Multiset Text) = ↑(job.singles.take s.singles_written) +
    ∑ i ∈ Finset.range job.thread_tot, (writtenPart job s i : Multiset Text)
  none_yet : ∀ i, (s.control.workers i).seen = none → s.written i = 0
  all_done : ∀ i subset, s.control.workers i = .finishing subset ∨
    s.control.workers i = .finished subset →
    (job.found i subset).isOk = true ∧ (job.phrases i subset).length ≤ s.written i
  singles_done : (s.control.workers 0).Past → job.singles.length ≤ s.singles_written

theorem logOk_start (job : SearchJob) : LogOk job .start where
  log_eq := by simp [WriteState.start, writtenPart]
  none_yet _ _ := rfl
  all_done i subset h := by simp [WriteState.start, JobState.start] at h
  singles_done h := h.elim

/-- One more write of a list. -/
theorem coe_take_succ {L : List Text} {n : Nat} {x : Text} (h : L[n]? = some x) :
    ((L.take (n + 1) : List Text) : Multiset Text) = ↑(L.take n) + {x} := by
  rw [List.take_add_one, h, ← Multiset.coe_singleton, Multiset.coe_add]
  rfl

/-- Only workers of the job are ever created. -/
theorem Creation.lt {job : Job} {s : JobState} (h : Creation job s) {i : Nat}
    (hi : s.workers i ≠ .uncreated) : i < job.thread_tot := by
  have hbelow : ∃ n ≤ job.thread_tot, CreatedBelow s n := by
    unfold Creation at h
    split at h
    · exact ⟨0, Nat.zero_le _, h⟩
    · exact ⟨0, Nat.zero_le _, h.1⟩
    · exact ⟨_, h.2.1, h.1⟩
    · rcases h with hzero | ⟨n, hlt, hn, -⟩
      · exact ⟨0, Nat.zero_le _, hzero⟩
      · exact ⟨n, hlt.le, hn⟩
    · exact ⟨_, le_rfl, h.1⟩
  obtain ⟨n, hn, hcreated⟩ := hbelow
  exact ((hcreated i).mp hi).trans_le hn

/-- The next worker to be created is not created yet. -/
theorem Creation.uncreated {job : Job} {s : JobState} (h : Creation job s) {i : Nat}
    (hpc : s.main = .creating i) : s.workers i = .uncreated := by
  rw [Creation, hpc] at h
  by_contra hne
  exact ((h.1 i).mp hne).false

/-- One worker goes on to another place, and nothing is written. -/
theorem LogOk.of_worker {job : SearchJob} {s : WriteState} (h : LogOk job s) {c : JobState}
    {i : Nat} {w : WorkerAt} (hworkers : c.workers = (s.control.setWorker i w).workers)
    (hnone : w.seen = none → (s.control.workers i).seen = none)
    (hdone : ∀ subset, w = .finishing subset ∨ w = .finished subset →
      (job.found i subset).isOk = true ∧ (job.phrases i subset).length ≤ s.written i)
    (hpast : i = 0 → w.Past → job.singles.length ≤ s.singles_written) :
    LogOk job { s with control := c } := by
  have hself : c.workers i = w := by rw [hworkers, setWorker_self]
  have hne : ∀ j, j ≠ i → c.workers j = s.control.workers j := fun j hj => by
    rw [hworkers, setWorker_ne _ hj]
  refine ⟨h.log_eq, fun j hj => ?_, fun j subset hj => ?_, fun h0 => ?_⟩
  · by_cases hji : j = i
    · subst hji
      exact h.none_yet j (hnone (hself ▸ hj))
    · exact h.none_yet j (hne j hji ▸ hj)
  · by_cases hji : j = i
    · subst hji
      exact hdone subset (hself ▸ hj)
    · exact h.all_done j subset (hne j hji ▸ hj)
  · by_cases hi : 0 = i
    · subst hi
      exact hpast rfl (hself ▸ h0)
    · exact h.singles_done (hne 0 hi ▸ h0)

theorem logOk_move {job : SearchJob} {s : WriteState} {a : JobAct} {c : JobState}
    (hc : ControlOk job s.control) (h : LogOk job s) (hready : MayMove job s a)
    (hstep : jobStep job.toJob s.control a = some c) : LogOk job { s with control := c } := by
  cases a with
  | runJob =>
    cases runJobMove_of_step hstep with
    | @create i hpc hlt hok =>
      have hun : s.control.workers i = .uncreated := hc.creation.uncreated hpc
      exact h.of_worker rfl (fun _ => by rw [hun]; rfl) (by simp) (fun _ h0 => h0.elim)
    | _ => exact ⟨h.log_eq, h.none_yet, h.all_done, h.singles_done⟩
  | worker i =>
    unfold MayMove at hready
    cases workerMove_of_step hstep with
    | acquire hpc hlock =>
      refine h.of_worker rfl ?_ ?_ ?_
      · rw [hpc]
        exact fun _ => rfl
      · split_ifs <;> simp
      · rintro rfl h0
        exact h0.elim
    | insert hpc hword => exact ⟨h.log_eq, h.none_yet, h.all_done, h.singles_done⟩
    | gathered hpc hall hlock =>
      simp only [hpc] at hready
      refine h.of_worker rfl ?_ ?_ ?_
      · rw [hpc]
        exact fun _ => rfl
      · simp
      · exact fun _ _ => hready.resolve_left (Nat.not_lt.mpr hall)
    | release hpc hlock =>
      refine h.of_worker rfl ?_ ?_ ?_
      · rw [hpc]
        exact fun _ => rfl
      · simp
      · exact fun hi _ => absurd hi (hc.gather.holding i hpc)
    | combine hpc =>
      refine h.of_worker rfl ?_ ?_ ?_
      · rw [hpc]
        exact fun _ => rfl
      · simp
      · rintro rfl -
        exact h.singles_done (by rw [hpc]; trivial)
    | @emit subset hpc =>
      simp only [hpc] at hready
      refine h.of_worker rfl ?_ ?_ ?_
      · rintro ⟨⟩
      · rintro subset' (heq | heq) <;> cases heq
        exact hready
      · rintro rfl -
        exact h.singles_done (by rw [hpc]; trivial)
    | @finish subset hpc =>
      refine h.of_worker rfl ?_ ?_ ?_
      · rintro ⟨⟩
      · rintro subset' (heq | heq) <;> cases heq
        exact h.all_done i subset (Or.inl hpc)
      · rintro rfl -
        exact h.singles_done (by rw [hpc]; trivial)

/-- A worker writes its next phrase. -/
theorem logOk_phrase {job : SearchJob} {s : WriteState} (hc : ControlOk job s.control)
    (h : LogOk job s) {i : Nat} {x : Text} {subset : List Text}
    (hpc : s.control.workers i = .combining subset)
    (hx : (job.phrases i subset)[s.written i]? = some x) :
    LogOk job
      { s with written := Function.update s.written i (s.written i + 1), log := s.log ++ [x] } := by
  obtain rfl : subset = job.gathered := hc.gather.seen i subset (by rw [hpc]; rfl)
  have hi : i < job.thread_tot := hc.creation.lt (by simp [hpc])
  refine ⟨?_, fun j hj => ?_, fun j subset' hj => ?_, h.singles_done⟩
  · have hpart : ∀ j, ((writtenPart job { s with
        written := Function.update s.written i (s.written i + 1), log := s.log ++ [x] } j :
          List Text) : Multiset Text) =
        ↑(writtenPart job s j) + if i = j then {x} else 0 := by
      intro j
      unfold writtenPart
      dsimp only
      by_cases hj : i = j
      · subst hj
        rw [if_pos rfl, Function.update_self, coe_take_succ hx]
      · rw [if_neg hj, Function.update_of_ne (Ne.symm hj), add_zero]
    simp only [hpart, Finset.sum_add_distrib, Finset.sum_ite_eq, Finset.mem_range, hi, if_true]
    rw [← Multiset.coe_add, h.log_eq, add_assoc]
    rfl
  · have hji : j ≠ i := by
      rintro rfl
      simp [hpc, WorkerAt.seen] at hj
    dsimp only
    rw [Function.update_of_ne hji, h.none_yet j hj]
  · have hji : j ≠ i := by
      rintro rfl
      simp [hpc] at hj
    dsimp only
    rw [Function.update_of_ne hji]
    exact h.all_done j subset' hj

theorem logOk_step {job : SearchJob} {s t : WriteState} {a : WriteAct}
    (hc : ControlOk job s.control) (h : LogOk job s) (hstep : writeStep job s a = some t) :
    LogOk job t := by
  cases writeMove_of_step hstep with
  | @single i x hpc hx =>
    have hnot : ¬ (s.control.workers 0).Past := by
      rw [← hc.gather.gathering i hpc, hpc]
      exact id
    refine ⟨?_, h.none_yet, h.all_done, fun h0 => absurd h0 hnot⟩
    simp only [← Multiset.coe_add, h.log_eq, coe_take_succ hx, writtenPart]
    rw [Multiset.coe_singleton]
    abel
  | phrase hpc hx => exact logOk_phrase hc h hpc hx
  | move hready hmove => exact logOk_move hc h hready hmove

/-! ## Every order of the steps -/

/-- What every state of a run has, when worker 0 takes the lock first. -/
structure WriteOk (job : SearchJob) (s : WriteState) : Prop where
  control : ControlOk job s.control
  log : LogOk job s

theorem writeOk_start (job : SearchJob) : WriteOk job .start :=
  ⟨controlOk_start job, logOk_start job⟩

theorem writeOk_step {job : SearchJob} {s t : WriteState} {a : WriteAct} (h : WriteOk job s)
    (hfirst : TakesFirst s a) (hstep : writeStep job s a = some t) : WriteOk job t :=
  ⟨controlOk_step h.control hfirst hstep, logOk_step h.control h.log hstep⟩

theorem writeOk_run {job : SearchJob} {s : WriteState} {as : List WriteAct}
    (hfirst : Along (writeStep job) TakesFirst .start as)
    (hrun : run (writeStep job) .start as = some s) : WriteOk job s :=
  (always_of_along (fun _ _ _ h hp hstep => writeOk_step h hp hstep) (fun _ h => h)
    (writeOk_start job) hfirst).of_run hrun

/-- All that the workers of a job have to write. -/
def SearchJob.writes (job : SearchJob) : List Text :=
  job.singles ++ (List.range job.thread_tot).flatMap fun i => job.phrases i job.gathered

theorem coe_writes (job : SearchJob) : (job.writes : Multiset Text) =
    ↑job.singles +
      ∑ i ∈ Finset.range job.thread_tot, (job.phrases i job.gathered : Multiset Text) := by
  unfold SearchJob.writes
  rw [← Multiset.coe_add, ← Multiset.coe_bind]
  rfl

/-- What is written so far is a part of it. -/
theorem LogOk.subperm {job : SearchJob} {s : WriteState} (h : LogOk job s) :
    s.log.Subperm job.writes := by
  rw [← Multiset.coe_le, h.log_eq, coe_writes]
  apply add_le_add
  · exact Multiset.coe_le.mpr (List.take_sublist _ _).subperm
  · apply Finset.sum_le_sum
    exact fun i _ => Multiset.coe_le.mpr (List.take_sublist _ _).subperm

/-- When every worker is done, all is written. -/
theorem LogOk.perm {job : SearchJob} {s : WriteState} (h : LogOk job s)
    (hseen : ∀ k subset, (s.control.workers k).seen = some subset → subset = job.gathered)
    (hfinished : ∀ i < job.thread_tot, (s.control.workers i).Finished)
    (hzero : (s.control.workers 0).Past) : s.log.Perm job.writes := by
  rw [← Multiset.coe_eq_coe, h.log_eq, coe_writes, List.take_of_length_le (h.singles_done hzero)]
  congr 1
  apply Finset.sum_congr rfl
  intro i hi
  obtain ⟨subset, hsubset⟩ := hfinished i (Finset.mem_range.mp hi)
  obtain rfl : subset = job.gathered := hseen i subset (by rw [hsubset]; rfl)
  unfold writtenPart
  rw [List.take_of_length_le (h.all_done i _ (Or.inr hsubset)).2]

/-- When `RunJob` has returned from its end, no search has failed, and all is written. -/
theorem WriteOk.returned {job : SearchJob} {s : WriteState} (h : WriteOk job s)
    (htot : job.thread_tot ≤ joinTot) (hret : s.control.main = .returned true) :
    (∀ i < job.thread_tot, (job.found i job.gathered).isOk = true) ∧ s.log.Perm job.writes := by
  have hjoin := h.control.join
  rw [JoinOk, hret] at hjoin
  have hseen := h.control.gather.seen
  have hfinished : ∀ i < job.thread_tot, (s.control.workers i).Finished :=
    fun i hi => hjoin i (hi.trans_le htot)
  have hzero : (s.control.workers 0).Past := by
    obtain ⟨subset, hsubset⟩ := hjoin 0 (by decide)
    rw [hsubset]
    trivial
  refine ⟨fun i hi => ?_, h.log.perm hseen hfinished hzero⟩
  obtain ⟨subset, hsubset⟩ := hfinished i hi
  obtain rfl : subset = job.gathered := hseen i subset (by rw [hsubset]; rfl)
  exact (h.log.all_done i _ (Or.inr hsubset)).1

/-- Whatever the order of the steps in which worker 0 is the first to take the gather lock, nothing
is written twice before `RunJob` is over. When it returns from its end, and the workers are the
seven that it joins, no search has failed, and everything is written, once: the anagrams of one
word, and what each search finds. -/
theorem every_order_of_steps_writes_each_anagram_once (job : SearchJob) (as : List WriteAct)
    (hfirst : Along (writeStep job) TakesFirst .start as) (s : WriteState)
    (hrun : run (writeStep job) .start as = some s) :
    s.log.Subperm job.writes ∧
    (job.thread_tot = joinTot → s.control.main = .returned true →
      (∀ i < job.thread_tot, (job.found i job.gathered).isOk = true) ∧ s.log.Perm job.writes) := by
  have hok := writeOk_run hfirst hrun
  exact ⟨hok.log.subperm, fun htot => hok.returned htot.le⟩

/-- Seven workers. Worker 0 gathers one word and finds one anagram, and each search finds a phrase
of its own. -/
def sevenSearches : SearchJob :=
  ⟨joinTot, true, true, fun _ => false, [bytes "a"], [bytes "ab"],
    fun i _ => .ok [[UInt8.ofNat i]]⟩

/-- A run of it to its end. The workers take each of their steps in turn. -/
def stepsInTurn : List WriteAct :=
  List.replicate 10 (WriteAct.move .runJob) ++
    [WriteAct.move (.worker 0), WriteAct.write 0, WriteAct.move (.worker 0),
      WriteAct.move (.worker 0)] ++
    ((List.range 6).flatMap fun i => List.replicate 2 (WriteAct.move (.worker (i + 1)))) ++
    ((List.range 7).map fun i => WriteAct.move (.worker i)) ++
    ((List.range 7).map fun i => WriteAct.write i) ++
    ((List.range 7).flatMap fun i => List.replicate 2 (WriteAct.move (.worker i))) ++
    List.replicate 8 (WriteAct.move .runJob)

theorem seven_searches_write_their_phrases_once :
    ∃ s, run (writeStep sevenSearches) .start stepsInTurn = some s ∧
      s.log.Perm sevenSearches.writes := by
  have hends : (run (writeStep sevenSearches) .start stepsInTurn).map (·.control.main) =
      some (.returned true) := by decide +kernel
  obtain ⟨s, hrun, hret⟩ := Option.map_eq_some_iff.mp hends
  have hall := every_order_of_steps_writes_each_anagram_once sevenSearches stepsInTurn
    (by decide +kernel) s hrun
  exact ⟨s, hrun, (hall.2 rfl hret).2⟩

end anagram
