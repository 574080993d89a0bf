-- The spin lock of anagram_lock.h, one atomic step at a time. The laws: what
-- must hold at each test-and-set for the lock to exclude, and that it is a
-- mutex as long as that holds.
import Anagram.General.Interleaving

open interleaving

namespace anagram

/-- Where a thread is: outside or in the spin loop of `Acquire`, past that loop and before the
test-and-set, or inside its critical section. -/
inductive LockPc
  | outside
  | past_spin
  | inside
deriving DecidableEq

/-- The lock and the threads that use it. -/
structure LockState (ι : Type) where
  lock_ : Int
  pc : ι → LockPc

inductive LockAct (ι : Type)
  | read (i : ι)
  | testAndSet (i : ι)
  | store (i : ι)
deriving DecidableEq

variable {ι : Type} [DecidableEq ι]

def LockState.goto (s : LockState ι) (i : ι) (pc : LockPc) : LockState ι :=
  { s with pc := Function.update s.pc i pc }

def LockState.start : LockState ι := ⟨0, fun _ => .outside⟩

/-- The atomic steps: a read of `lock_` in the spin loop and the `__sync_lock_test_and_set` of
`Acquire`, and the store of `Release`. -/
def lockStep (s : LockState ι) : LockAct ι → Option (LockState ι)
  | .read i =>
    if s.pc i ≠ .outside then none
    else if s.lock_ ≠ 0 then some s
    else some (s.goto i .past_spin)
  | .testAndSet i =>
    -- the old value of `lock_` is dropped
    if s.pc i ≠ .past_spin then none
    else some { s.goto i .inside with lock_ := 1 }
  | .store i =>
    if s.pc i ≠ .inside then none
    else some { s.goto i .outside with lock_ := 0 }

/-- No two threads are between the end of `Acquire` and the start of `Release`. -/
def MutualExclusion (s : LockState ι) : Prop :=
  ∀ i j, s.pc i = .inside → s.pc j = .inside → i = j

/-- A test-and-set finds the lock free. -/
def FindsFree (s : LockState ι) : LockAct ι → Prop
  | .testAndSet _ => s.lock_ = 0
  | _ => True

/-! ## What one step does -/

@[simp] theorem goto_pc_self (s : LockState ι) (i : ι) (pc : LockPc) :
    (s.goto i pc).pc i = pc := Function.update_self ..

@[simp] theorem goto_pc_ne (s : LockState ι) {i j : ι} (h : j ≠ i) (pc : LockPc) :
    (s.goto i pc).pc j = s.pc j := Function.update_of_ne h ..

theorem lockStep_cases {s t : LockState ι} {a : LockAct ι} (h : lockStep s a = some t) :
    (∃ i, a = .read i ∧ s.pc i = .outside ∧ (t = s ∨ t = s.goto i .past_spin)) ∨
    (∃ i, a = .testAndSet i ∧ s.pc i = .past_spin ∧ t = { s.goto i .inside with lock_ := 1 }) ∨
    (∃ i, a = .store i ∧ s.pc i = .inside ∧ t = { s.goto i .outside with lock_ := 0 }) := by
  cases a with
  | read i =>
    simp only [lockStep] at h
    split_ifs at h with hpc hlock
    · exact Or.inl ⟨i, rfl, by simpa using hpc, Or.inl (Option.some.inj h).symm⟩
    · exact Or.inl ⟨i, rfl, by simpa using hpc, Or.inr (Option.some.inj h).symm⟩
  | testAndSet i =>
    simp only [lockStep] at h
    split_ifs at h with hpc
    exact Or.inr (Or.inl ⟨i, rfl, by simpa using hpc, (Option.some.inj h).symm⟩)
  | store i =>
    simp only [lockStep] at h
    split_ifs at h with hpc
    exact Or.inr (Or.inr ⟨i, rfl, by simpa using hpc, (Option.some.inj h).symm⟩)

/-! ## The lock as a mutex -/

/-- `lock_` tells whether the mutex has a holder, and the threads inside are the holder. -/
structure HeldBy (s : LockState ι) (m : Mutex ι) : Prop where
  lock_eq : s.lock_ = if m = none then 0 else 1
  inside_iff : ∀ i, s.pc i = .inside ↔ m = some i

/-- What the steps are for the mutex. -/
def LockAct.visible : LockAct ι → List (MutexAct ι)
  | .read _ => []
  | .testAndSet i => [.acquire i]
  | .store i => [.release i]

omit [DecidableEq ι] in
theorem heldBy_start : HeldBy (LockState.start : LockState ι) none where
  lock_eq := rfl
  inside_iff i := by simp [LockState.start]

omit [DecidableEq ι] in
theorem HeldBy.free {s : LockState ι} {m : Mutex ι} (h : HeldBy s m) : s.lock_ = 0 ↔ m = none := by
  rw [h.lock_eq]
  split <;> simp_all

/-- A step that moves `i` between outside and the test-and-set changes nothing for the mutex. -/
theorem HeldBy.goto {s : LockState ι} {m : Mutex ι} (h : HeldBy s m) {i : ι}
    (hi : s.pc i ≠ .inside) {pc : LockPc} (hpc : pc ≠ .inside) : HeldBy (s.goto i pc) m where
  lock_eq := h.lock_eq
  inside_iff j := by
    by_cases hj : j = i
    · subst hj
      rw [goto_pc_self, ← h.inside_iff]
      exact iff_of_false hpc hi
    · rw [goto_pc_ne s hj, h.inside_iff]

/-- As long as each test-and-set finds the lock free, the lock does what a mutex does. -/
theorem lock_simulates_mutex (s : LockState ι) (a : LockAct ι) (t : LockState ι) (m : Mutex ι)
    (h : HeldBy s m) (hp : FindsFree s a) (hstep : lockStep s a = some t) :
    ∃ n, run mutexStep m a.visible = some n ∧ HeldBy t n := by
  rcases lockStep_cases hstep with ⟨i, rfl, hpc, ht⟩ | ⟨i, rfl, hpc, rfl⟩ | ⟨i, rfl, hpc, rfl⟩
  · refine ⟨m, rfl, ?_⟩
    rcases ht with rfl | rfl
    · exact h
    · exact h.goto (by simp [hpc]) (by simp)
  · have hm : m = none := h.free.mp hp
    subst hm
    refine ⟨some i, by simp [LockAct.visible, run, mutexStep], ⟨rfl, fun j => ?_⟩⟩
    by_cases hj : j = i
    · simp [hj]
    · have hout := h.inside_iff j
      simp_all [eq_comm]
  · have hm : m = some i := (h.inside_iff i).mp hpc
    subst hm
    refine ⟨none, by simp [LockAct.visible, run, mutexStep], ⟨rfl, fun j => ?_⟩⟩
    by_cases hj : j = i
    · simp [hj]
    · have hout := h.inside_iff j
      simp_all [eq_comm]

omit [DecidableEq ι] in
theorem HeldBy.mutualExclusion {s : LockState ι} {m : Mutex ι} (h : HeldBy s m) :
    MutualExclusion s := by
  intro i j hi hj
  have hm := (h.inside_iff i).mp hi
  exact Option.some.inj (hm.symm.trans ((h.inside_iff j).mp hj))

/-- In every run in which each test-and-set finds the lock free, the acquisitions and releases
are those of a mutex. -/
theorem the_lock_is_a_mutex {as : List (LockAct ι)} {t : LockState ι}
    (h : Along lockStep FindsFree LockState.start as)
    (hrun : run lockStep LockState.start as = some t) :
    ∃ m, run mutexStep none (as.flatMap LockAct.visible) = some m ∧ HeldBy t m :=
  run_simulates LockAct.visible lock_simulates_mutex heldBy_start h hrun

/-! ## Mutual exclusion -/

/-- A run keeps mutual exclusion exactly when each of its test-and-sets finds the lock free. -/
theorem threads_exclude_iff_each_test_and_set_finds_the_lock_free (as : List (LockAct ι)) :
    Always lockStep MutualExclusion LockState.start as ↔
      Along lockStep FindsFree LockState.start as := by
  refine always_iff_along (I := fun s => ∃ m, HeldBy s m) ?_ ?_ ?_ ⟨none, heldBy_start⟩
  · rintro s a t ⟨m, h⟩ hp hstep
    obtain ⟨n, _, hn⟩ := lock_simulates_mutex s a t m h hp hstep
    exact ⟨n, hn⟩
  · rintro s ⟨m, h⟩
    exact h.mutualExclusion
  · rintro s a t ⟨m, h⟩ hp hstep hex
    rcases lockStep_cases hstep with ⟨i, rfl, _⟩ | ⟨i, rfl, hpc, rfl⟩ | ⟨i, rfl, _⟩
    · exact hp trivial
    · obtain ⟨j, rfl⟩ := Option.ne_none_iff_exists'.mp fun hm => hp (h.free.mpr hm)
      have hj : s.pc j = .inside := (h.inside_iff j).mpr rfl
      have hne : j ≠ i := by
        rintro rfl
        rw [hj] at hpc
        cases hpc
      exact hne (hex j i (by simpa [hne] using hj) (by simp))
    · exact hp trivial

/-- Both threads see the lock free before either takes it. -/
theorem two_threads_get_inside :
    ¬ ∀ as : List (LockAct Nat), Always lockStep MutualExclusion LockState.start as := by
  intro h
  have hlast := (h [.read 0, .read 1, .testAndSet 0, .testAndSet 1]).of_run rfl
  exact absurd (hlast 0 1 rfl rfl) (by decide)

end anagram
