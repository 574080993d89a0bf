-- RunJob (main.cc) and its workers, one step at a time. RunJob allocates,
-- creates the workers, joins seven handles and returns. Worker 0 fills the
-- subset under `gather_lock`, the others take and release that lock once, and
-- then all of them combine. The lock is a mutex here.
import Anagram.Machine
import Anagram.General.Interleaving

open interleaving

namespace anagram

/-- What a job is given. `params_ok`, `handles_ok` and `create_error` are the outcomes of its two
allocations and of `pthread_create` for each worker, `gathered` are the words that worker 0 puts
into the subset, and `contribution` is what `CombineSubsetsFast` of a worker adds to the map of
the anagrams when it iterates the given subset. -/
structure Job where
  thread_tot : Nat
  params_ok : Bool
  handles_ok : Bool
  create_error : Nat → Bool
  gathered : List Text
  contribution : Nat → List Text → List Text

/-- Where a worker is. From the start of `CombineSubsetsFast` on, the subset that it iterates is
kept with it. -/
inductive WorkerAt
  | uncreated
  | acquiring
  | gathering
  | holding
  | past_gather
  | combining (subset : List Text)
  | finishing (subset : List Text)
  | finished (subset : List Text)
deriving DecidableEq

/-- Where `RunJob` is. `undefined` is a join of a handle that was never filled. -/
inductive MainAt
  | params
  | handles
  | creating (i : Nat)
  | joining (k : Nat)
  | returned (ok : Bool)
  | undefined
deriving DecidableEq

structure JobState where
  main : MainAt
  workers : Nat → WorkerAt
  gather_lock : Mutex Nat
  subset : List Text
  anagrams : List Text

inductive JobAct
  | runJob
  | worker (i : Nat)
deriving DecidableEq

def JobState.start : JobState := ⟨.params, fun _ => .uncreated, none, [], []⟩

def JobState.setWorker (s : JobState) (i : Nat) (w : WorkerAt) : JobState :=
  { s with workers := Function.update s.workers i w }

/-- `pthread_join(pthread_struct[0], ..)` to `pthread_join(pthread_struct[6], ..)`. -/
def joinTot : Nat := 7

/-- The next step of `RunJob`. -/
def runJobStep (job : Job) (s : JobState) : Option JobState :=
  match s.main with
  | .params => some { s with main := if job.params_ok then .handles else .returned false }
  | .handles => some { s with main := if job.handles_ok then .creating 0 else .returned false }
  | .creating i =>
    if i < job.thread_tot then
      -- an error returns at once, and joins none of the workers created so far
      if job.create_error i then some { s with main := .returned false }
      else some { s.setWorker i .acquiring with main := .creating (i + 1) }
    else some { s with main := .joining 0 }
  | .joining k =>
    if k < joinTot then
      match s.workers k with
      | .uncreated => some { s with main := .undefined }
      | .finished _ => some { s with main := .joining (k + 1) }
      | _ => none
    else some { s with main := .returned true }
  | .returned _ => none
  | .undefined => none

/-- The next step of worker `i`: `GetAnagrams` with its thread index, and then the return. -/
def jobWorkerStep (job : Job) (s : JobState) (i : Nat) : Option JobState :=
  match s.workers i with
  | .uncreated => none
  | .acquiring => do
    let held ← mutexStep s.gather_lock (.acquire i)
    some { s.setWorker i (if i = 0 then .gathering else .holding) with gather_lock := held }
  | .gathering =>
    match job.gathered[s.subset.length]? with
    | some word => some { s with subset := s.subset ++ [word] }
    | none => do
      let free ← mutexStep s.gather_lock (.release i)
      some { s.setWorker i .past_gather with gather_lock := free }
  | .holding => do
    let free ← mutexStep s.gather_lock (.release i)
    some { s.setWorker i .past_gather with gather_lock := free }
  | .past_gather => some (s.setWorker i (.combining s.subset))
  | .combining subset =>
    some { s.setWorker i (.finishing subset) with
      anagrams := s.anagrams ++ job.contribution i subset }
  | .finishing subset => some (s.setWorker i (.finished subset))
  | .finished _ => none

def jobStep (job : Job) (s : JobState) : JobAct → Option JobState
  | .runJob => runJobStep job s
  | .worker i => jobWorkerStep job s i

/-! ## What one step does -/

/-- All that a step of `RunJob` can do. -/
inductive RunJobMove (job : Job) (s : JobState) : JobState → Prop
  | params (h : s.main = .params) (hok : job.params_ok = true) :
      RunJobMove job s { s with main := .handles }
  | params_fail (h : s.main = .params) (hok : job.params_ok = false) :
      RunJobMove job s { s with main := .returned false }
  | handles (h : s.main = .handles) (hok : job.handles_ok = true) :
      RunJobMove job s { s with main := .creating 0 }
  | handles_fail (h : s.main = .handles) (hok : job.handles_ok = false) :
      RunJobMove job s { s with main := .returned false }
  | create {i : Nat} (h : s.main = .creating i) (hlt : i < job.thread_tot)
      (hok : job.create_error i = false) :
      RunJobMove job s { s.setWorker i .acquiring with main := .creating (i + 1) }
  | create_fail {i : Nat} (h : s.main = .creating i) (hlt : i < job.thread_tot)
      (hok : job.create_error i = true) : RunJobMove job s { s with main := .returned false }
  | created {i : Nat} (h : s.main = .creating i) (hge : ¬ i < job.thread_tot) :
      RunJobMove job s { s with main := .joining 0 }
  | join {k : Nat} {subset : List Text} (h : s.main = .joining k) (hlt : k < joinTot)
      (hfin : s.workers k = .finished subset) : RunJobMove job s { s with main := .joining (k + 1) }
  | join_unfilled {k : Nat} (h : s.main = .joining k) (hlt : k < joinTot)
      (hun : s.workers k = .uncreated) : RunJobMove job s { s with main := .undefined }
  | joined {k : Nat} (h : s.main = .joining k) (hge : ¬ k < joinTot) :
      RunJobMove job s { s with main := .returned true }

/-- All that a step of worker `i` can do. -/
inductive WorkerMove (job : Job) (s : JobState) (i : Nat) : JobState → Prop
  | acquire (h : s.workers i = .acquiring) (hlock : s.gather_lock = none) :
      WorkerMove job s i
        { s.setWorker i (if i = 0 then .gathering else .holding) with gather_lock := some i }
  | insert {word : Text} (h : s.workers i = .gathering)
      (hword : job.gathered[s.subset.length]? = some word) :
      WorkerMove job s i { s with subset := s.subset ++ [word] }
  | gathered (h : s.workers i = .gathering) (hall : job.gathered.length ≤ s.subset.length)
      (hlock : s.gather_lock = some i) :
      WorkerMove job s i { s.setWorker i .past_gather with gather_lock := none }
  | release (h : s.workers i = .holding) (hlock : s.gather_lock = some i) :
      WorkerMove job s i { s.setWorker i .past_gather with gather_lock := none }
  | combine (h : s.workers i = .past_gather) :
      WorkerMove job s i (s.setWorker i (.combining s.subset))
  | emit {subset : List Text} (h : s.workers i = .combining subset) :
      WorkerMove job s i { s.setWorker i (.finishing subset) with
        anagrams := s.anagrams ++ job.contribution i subset }
  | finish {subset : List Text} (h : s.workers i = .finishing subset) :
      WorkerMove job s i (s.setWorker i (.finished subset))

theorem runJobMove_of_step {job : Job} {s t : JobState} (h : jobStep job s .runJob = some t) :
    RunJobMove job s t := by
  simp only [jobStep, runJobStep] at h
  split at h
  · cases h
    split
    · exact .params ‹_› ‹_›
    · exact .params_fail ‹_› (eq_false_of_ne_true ‹_›)
  · cases h
    split
    · exact .handles ‹_› ‹_›
    · exact .handles_fail ‹_› (eq_false_of_ne_true ‹_›)
  · split_ifs at h with hlt hok <;> cases h
    · exact .create_fail ‹_› hlt hok
    · exact .create ‹_› hlt (by simpa using hok)
    · exact .created ‹_› hlt
  · split_ifs at h with hlt
    · split at h <;> cases h
      · exact .join_unfilled ‹_› hlt ‹_›
      · exact .join ‹_› hlt ‹_›
    · cases h
      exact .joined ‹_› hlt
  · cases h
  · cases h

theorem workerMove_of_step {job : Job} {s t : JobState} {i : Nat}
    (h : jobStep job s (.worker i) = some t) : WorkerMove job s i t := by
  simp only [jobStep, jobWorkerStep] at h
  split at h
  · cases h
  · obtain ⟨held, hheld, h⟩ := Option.bind_eq_some_iff.mp h
    obtain ⟨hlock, rfl⟩ := mutexStep_acquire.mp hheld
    cases h
    exact .acquire ‹_› hlock
  · split at h
    · cases h
      exact .insert ‹_› ‹_›
    · obtain ⟨free, hfree, h⟩ := Option.bind_eq_some_iff.mp h
      obtain ⟨hlock, rfl⟩ := mutexStep_release.mp hfree
      cases h
      exact .gathered ‹_› (List.getElem?_eq_none_iff.mp ‹_›) hlock
  · obtain ⟨free, hfree, h⟩ := Option.bind_eq_some_iff.mp h
    obtain ⟨hlock, rfl⟩ := mutexStep_release.mp hfree
    cases h
    exact .release ‹_› hlock
  · cases h
    exact .combine ‹_›
  · cases h
    exact .emit ‹_›
  · cases h
    exact .finish ‹_›
  · cases h

@[simp] theorem setWorker_self (s : JobState) (i : Nat) (w : WorkerAt) :
    (s.setWorker i w).workers i = w := Function.update_self ..

@[simp] theorem setWorker_ne (s : JobState) {i j : Nat} (h : j ≠ i) (w : WorkerAt) :
    (s.setWorker i w).workers j = s.workers j := Function.update_of_ne h ..

namespace WorkerMove

variable {job : Job} {s t : JobState} {i : Nat}

theorem main_eq (h : WorkerMove job s i t) : t.main = s.main := by
  cases h <;> rfl

theorem created (h : WorkerMove job s i t) : s.workers i ≠ .uncreated := by
  cases h <;> simp [*]

/-- A worker moves alone, and it never becomes uncreated. -/
theorem workers_ne (h : WorkerMove job s i t) {j : Nat} (hj : j ≠ i) :
    t.workers j = s.workers j := by
  cases h with
  | insert => rfl
  | _ => exact setWorker_ne s hj _

theorem uncreated_iff (h : WorkerMove job s i t) (j : Nat) :
    t.workers j = .uncreated ↔ s.workers j = .uncreated := by
  by_cases hj : j = i
  · subst hj
    refine iff_of_false (fun hun => ?_) h.created
    cases h with
    | acquire =>
      simp only [setWorker_self] at hun
      split at hun <;> cases hun
    | insert hpc => simp [hpc] at hun
    | _ => simp at hun
  · rw [h.workers_ne hj]

end WorkerMove

/-! ## Which workers are created -/

/-- Exactly the workers below `n` are created. -/
def CreatedBelow (s : JobState) (n : Nat) : Prop := ∀ i, s.workers i ≠ .uncreated ↔ i < n

/-- Both allocations succeed, and so do the creations of the first `n` workers. -/
def NoErrorBelow (job : Job) (n : Nat) : Prop :=
  job.params_ok = true ∧ job.handles_ok = true ∧ ∀ i < n, job.create_error i = false

/-- The workers are created in order, up to the first error. -/
def Creation (job : Job) (s : JobState) : Prop :=
  match s.main with
  | .params => CreatedBelow s 0
  | .handles => CreatedBelow s 0 ∧ job.params_ok = true
  | .creating n => CreatedBelow s n ∧ n ≤ job.thread_tot ∧ NoErrorBelow job n
  | .returned false => CreatedBelow s 0 ∨
    ∃ n < job.thread_tot, CreatedBelow s n ∧ NoErrorBelow job n ∧ job.create_error n = true
  | _ => CreatedBelow s job.thread_tot ∧ NoErrorBelow job job.thread_tot

theorem creation_start (job : Job) : Creation job .start := by
  intro i
  simp [JobState.start]

theorem createdBelow_congr {s t : JobState}
    (h : ∀ i, t.workers i = .uncreated ↔ s.workers i = .uncreated) {n : Nat} :
    CreatedBelow t n ↔ CreatedBelow s n := by
  simp only [CreatedBelow, ne_eq, h]

theorem createdBelow_create {s : JobState} {n : Nat} (h : CreatedBelow s n) (main : MainAt) :
    CreatedBelow { s.setWorker n .acquiring with main := main } (n + 1) := by
  intro i
  by_cases hi : i = n
  · subst hi
    simp
  · have hne : ({ s.setWorker n .acquiring with main := main } : JobState).workers i =
        s.workers i := setWorker_ne s hi _
    rw [hne, h i]
    omega

theorem creation_step {job : Job} {s t : JobState} {a : JobAct} (hs : Creation job s)
    (h : jobStep job s a = some t) : Creation job t := by
  cases a with
  | worker i =>
    have hmove := workerMove_of_step h
    unfold Creation at hs ⊢
    simp only [hmove.main_eq, createdBelow_congr hmove.uncreated_iff]
    exact hs
  | runJob =>
    cases runJobMove_of_step h with
    | params hpc hok =>
      rw [Creation, hpc] at hs
      exact ⟨hs, hok⟩
    | params_fail hpc hok =>
      rw [Creation, hpc] at hs
      exact Or.inl hs
    | handles hpc hok =>
      rw [Creation, hpc] at hs
      exact ⟨hs.1, Nat.zero_le _, hs.2, hok, fun i hi => absurd hi (Nat.not_lt_zero i)⟩
    | handles_fail hpc hok =>
      rw [Creation, hpc] at hs
      exact Or.inl hs.1
    | @create i hpc hlt hok =>
      rw [Creation, hpc] at hs
      obtain ⟨hbelow, _, hp, hh, herr⟩ := hs
      refine ⟨createdBelow_create hbelow _, hlt, hp, hh, fun j hj => ?_⟩
      rcases Nat.lt_succ_iff_lt_or_eq.mp hj with hj | rfl
      · exact herr j hj
      · exact hok
    | @create_fail i hpc hlt hok =>
      rw [Creation, hpc] at hs
      exact Or.inr ⟨i, hlt, hs.1, hs.2.2, hok⟩
    | @created i hpc hge =>
      rw [Creation, hpc] at hs
      obtain ⟨hbelow, hle, herr⟩ := hs
      obtain rfl : i = job.thread_tot := by omega
      exact ⟨hbelow, herr⟩
    | join hpc hlt hfin =>
      rw [Creation, hpc] at hs
      exact hs
    | join_unfilled hpc hlt hun =>
      rw [Creation, hpc] at hs
      exact hs
    | joined hpc hge =>
      rw [Creation, hpc] at hs
      exact hs

end anagram
