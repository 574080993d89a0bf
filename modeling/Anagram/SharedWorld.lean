-- What the workers of a job share (main.cc), whatever the order of their steps. With
-- -o, each anagram is a line for the queue. Without it, each is a key of the map. A
-- word is followed by a message about the size of the map, and a phrase by a
-- decrement of the throttle, which no lock guards, and by a message when it comes to
-- 0. Updates of the throttle can be lost, and messages with them, but no anagram.
import Anagram.GatherLog
import Anagram.RunJob

open interleaving

namespace anagram

/-! ## What is pushed -/

def Effect.pushed : Effect → Option Text
  | .push text => some text
  | .write _ => none

def pushesOf (w : World) : List Text := w.effects.filterMap Effect.pushed

@[simp] theorem pushesOf_push (w : World) (text : Text) :
    pushesOf (w.push text) = pushesOf w ++ [text] := by
  simp [pushesOf, World.push, Effect.pushed]

@[simp] theorem pushesOf_write (w : World) (key : Text) : pushesOf (w.write key) = pushesOf w := by
  simp [pushesOf, World.write, Effect.pushed]

/-- The text that is pushed between one world and the next. -/
def newPush (w w' : World) : Option Text := (pushesOf w')[(pushesOf w).length]?

theorem newPush_eq {w w' : World} {text : Option Text}
    (h : pushesOf w' = pushesOf w ++ text.toList) : newPush w w' = text := by
  unfold newPush
  rw [h, List.getElem?_append_right le_rfl, Nat.sub_self]
  cases text <;> rfl

/-! ## The steps behind a phrase -/

/-- Where a worker is behind its write of a phrase to the map: before it reads the throttle, before
it stores what it makes of the number that it has read, before the reset, before `output_lock`,
before it reads the size of the map, or in `Push` with its message. -/
inductive MessageAt
  | idle
  | reading
  | storing (throttle : Int)
  | resetting
  | locking
  | counting
  | pushing
deriving DecidableEq

/-- The world, what each worker has still to do for its message, and `output_lock`. -/
structure SharedState where
  world : World
  messages : Nat → MessageAt
  output_lock : Mutex Nat

def SharedState.start : SharedState := ⟨.start, fun _ => .idle, none⟩

def SharedState.setMessage (s : SharedState) (i : Nat) (m : MessageAt) : SharedState :=
  { s with messages := Function.update s.messages i m }

@[simp] theorem setMessage_self (s : SharedState) (i : Nat) (m : MessageAt) :
    (s.setMessage i m).messages i = m := Function.update_self ..

@[simp] theorem setMessage_ne (s : SharedState) {i j : Nat} (h : j ≠ i) (m : MessageAt) :
    (s.setMessage i m).messages j = s.messages j := Function.update_of_ne h ..

/-- What worker `i` does with an anagram that it comes to. In the gather block, where it holds
`gather_lock`, it deals with it at once. -/
def SharedState.record (flags : AnagramFlags) (s : SharedState) (i : Nat) (worker : WorkerAt)
    (x : Text) : SharedState :=
  match worker with
  | .gathering => { s with world := addAnagram flags x s.world }
  | _ =>
    if flags.output_directly then { s with world := s.world.push (x ++ bytes "\n") }
    else { s.setMessage i .reading with world := s.world.write x }

@[simp] theorem record_messages_ne (flags : AnagramFlags) (s : SharedState) {i j : Nat}
    (h : j ≠ i) (worker : WorkerAt) (x : Text) :
    (s.record flags i worker x).messages j = s.messages j := by
  unfold SharedState.record
  split
  · rfl
  · split_ifs
    · rfl
    · exact setMessage_ne s h _

/-- The next step of worker `i` behind a phrase, from `if (!--output_queue_throttle)` on. -/
def messageStep (s : SharedState) (i : Nat) : Option SharedState :=
  match s.messages i with
  | .idle => none
  | .reading => some (s.setMessage i (.storing s.world.output_queue_throttle))
  | .storing throttle =>
    some { s.setMessage i (if throttle - 1 = 0 then .resetting else .idle) with
      world := { s.world with output_queue_throttle := throttle - 1 } }
  | .resetting =>
    some { s.setMessage i .locking with
      world := { s.world with output_queue_throttle := kOutputQueueThrottleFrequency } }
  | .locking => do
    let held ← mutexStep s.output_lock (.acquire i)
    some { s.setMessage i .counting with output_lock := held }
  | .counting =>
    some { s.setMessage i .pushing with
      world := s.world.push (foundMessage s.world.anagrams.size) }
  | .pushing => do
    let free ← mutexStep s.output_lock (.release i)
    some { s.setMessage i .idle with output_lock := free }

/-- All that a step can do. -/
inductive MessageMove (s : SharedState) (i : Nat) : SharedState → Prop
  | read (h : s.messages i = .reading) :
      MessageMove s i (s.setMessage i (.storing s.world.output_queue_throttle))
  | store {throttle : Int} (h : s.messages i = .storing throttle) :
      MessageMove s i { s.setMessage i (if throttle - 1 = 0 then .resetting else .idle) with
        world := { s.world with output_queue_throttle := throttle - 1 } }
  | reset (h : s.messages i = .resetting) :
      MessageMove s i { s.setMessage i .locking with
        world := { s.world with output_queue_throttle := kOutputQueueThrottleFrequency } }
  | acquire (h : s.messages i = .locking) (hlock : s.output_lock = none) :
      MessageMove s i { s.setMessage i .counting with output_lock := some i }
  | push (h : s.messages i = .counting) :
      MessageMove s i { s.setMessage i .pushing with
        world := s.world.push (foundMessage s.world.anagrams.size) }
  | release (h : s.messages i = .pushing) (hlock : s.output_lock = some i) :
      MessageMove s i { s.setMessage i .idle with output_lock := none }

theorem messageMove_of_step {s t : SharedState} {i : Nat} (h : messageStep s i = some t) :
    MessageMove s i t := by
  unfold messageStep at h
  split at h
  · cases h
  · cases h
    exact .read ‹_›
  · cases h
    exact .store ‹_›
  · cases h
    exact .reset ‹_›
  · obtain ⟨held, hheld, h⟩ := Option.bind_eq_some_iff.mp h
    obtain ⟨hlock, rfl⟩ := mutexStep_acquire.mp hheld
    cases h
    exact .acquire ‹_› hlock
  · cases h
    exact .push ‹_›
  · obtain ⟨free, hfree, h⟩ := Option.bind_eq_some_iff.mp h
    obtain ⟨hlock, rfl⟩ := mutexStep_release.mp hfree
    cases h
    exact .release ‹_› hlock

theorem MessageMove.busy {s t : SharedState} {i : Nat} (h : MessageMove s i t) :
    s.messages i ≠ .idle := by
  cases h <;> simp [*]

/-- A worker moves alone. -/
theorem MessageMove.messages_ne {s t : SharedState} {i j : Nat} (h : MessageMove s i t)
    (hj : j ≠ i) : t.messages j = s.messages j := by
  cases h <;> exact setMessage_ne s hj _

/-- A worker that nobody disturbs does what `emit` says. -/
theorem emit_undisturbed {flags : AnagramFlags} (hmap : flags.output_directly = false)
    {s : SharedState} {i : Nat} {worker : WorkerAt} (hworker : worker ≠ .gathering)
    (hidle : s.messages i = .idle) (hfree : s.output_lock = none) (x : Text) :
    ∃ n, run messageStep (s.record flags i worker x) (List.replicate n i) =
      some { s with world := emit flags x s.world } := by
  have hrecord : s.record flags i worker x =
      { s.setMessage i .reading with world := s.world.write x } := by
    cases worker <;> first | exact absurd rfl hworker | simp [SharedState.record, hmap]
  have hback : ∀ m, Function.update (Function.update s.messages i m) i .idle = s.messages := by
    intro m
    rw [Function.update_idem, ← hidle, Function.update_eq_self]
  rw [hrecord]
  by_cases hlast : s.world.output_queue_throttle - 1 = 0
  · refine ⟨6, ?_⟩
    simp [List.replicate_succ, run, messageStep, SharedState.setMessage, emit, hmap, hlast, hfree,
      mutexStep, World.write, hback]
  · refine ⟨2, ?_⟩
    simp [List.replicate_succ, run, messageStep, SharedState.setMessage, emit, hmap, hlast,
      World.write, hback]

-- two workers read the throttle before one of them stores it, and a decrement is lost
example : (run messageStep ((SharedState.start.setMessage 0 .reading).setMessage 1 .reading)
    [0, 1, 0, 1]).map (·.world.output_queue_throttle) = some 99 := by decide +kernel

/-! ## output_lock -/

/-- The worker has `output_lock`. -/
def MessageAt.Holds : MessageAt → Prop
  | .counting => True
  | .pushing => True
  | _ => False

def LockOk (s : SharedState) : Prop := ∀ i, s.output_lock = some i ↔ (s.messages i).Holds

theorem lockOk_start : LockOk .start := fun i => by
  simp [SharedState.start, MessageAt.Holds]

section
variable {s t : SharedState} {i : Nat}

/-- A worker goes on without the lock, or with it as before. -/
theorem LockOk.setMessage (h : LockOk s) {m : MessageAt} (hm : m.Holds ↔ (s.messages i).Holds)
    (world : World) : LockOk { s.setMessage i m with world := world } := by
  intro j
  by_cases hj : j = i
  · subst hj
    change s.output_lock = some j ↔ ((s.setMessage j m).messages j).Holds
    rw [setMessage_self, hm]
    exact h j
  · change s.output_lock = some j ↔ ((s.setMessage i m).messages j).Holds
    rw [setMessage_ne s hj]
    exact h j

theorem LockOk.record (h : LockOk s) (hidle : s.messages i = .idle) (flags : AnagramFlags)
    (worker : WorkerAt) (x : Text) : LockOk (s.record flags i worker x) := by
  unfold SharedState.record
  split
  · exact h
  · split_ifs
    · exact h
    · exact h.setMessage (by simp [hidle, MessageAt.Holds]) _

theorem lockOk_step (h : LockOk s) (hstep : messageStep s i = some t) : LockOk t := by
  cases messageMove_of_step hstep with
  | read hpc => exact h.setMessage (by simp [hpc, MessageAt.Holds]) s.world
  | store hpc => exact h.setMessage (by rw [hpc]; split_ifs <;> simp [MessageAt.Holds]) _
  | reset hpc => exact h.setMessage (by simp [hpc, MessageAt.Holds]) _
  | push hpc => exact h.setMessage (by simp [hpc, MessageAt.Holds]) _
  | acquire hpc hlock =>
    intro j
    by_cases hj : j = i
    · subst hj
      simp [MessageAt.Holds]
    · have hnot : ¬ (s.messages j).Holds := fun hj' => by
        have := (h j).mpr hj'
        simp [hlock] at this
      simp [setMessage_ne s hj, hnot, Ne.symm hj]
  | release hpc hlock =>
    intro j
    by_cases hj : j = i
    · subst hj
      simp [MessageAt.Holds]
    · have hnot : ¬ (s.messages j).Holds := fun hj' => by
        have := (h j).mpr hj'
        rw [hlock] at this
        exact hj (Option.some.inj this).symm
      simp [setMessage_ne s hj, hnot]

/-- The steps that are left to a worker for its message. -/
def MessageAt.toIdle : MessageAt → Nat
  | .idle => 0
  | .pushing => 1
  | .counting => 2
  | .locking => 3
  | .resetting => 4
  | .storing _ => 5
  | .reading => 6

theorem MessageMove.toIdle_lt (h : MessageMove s i t) :
    (t.messages i).toIdle < (s.messages i).toIdle := by
  cases h with
  | @store throttle hpc =>
    change ((s.setMessage i _).messages i).toIdle < _
    rw [setMessage_self, hpc]
    split_ifs <;> simp [MessageAt.toIdle]
  | _ => simp [*, MessageAt.toIdle]

/-- When no other worker has the lock, none gets it in a step of this one. -/
theorem MessageMove.lock (h : MessageMove s i t) (hlock : ∀ j, s.output_lock = some j → j = i) :
    ∀ j, t.output_lock = some j → j = i := by
  cases h with
  | acquire hpc hfree =>
    rintro j ⟨⟩
    rfl
  | release hpc hheld => rintro j ⟨⟩
  | _ => exact hlock

/-- And this one can go on, if it is in the middle of its message. -/
theorem LockOk.exists_step (h : LockOk s) (hbusy : s.messages i ≠ .idle)
    (hlock : ∀ j, s.output_lock = some j → j = i) : ∃ t, messageStep s i = some t := by
  rw [← Option.isSome_iff_exists]
  cases hpc : s.messages i with
  | idle => exact absurd hpc hbusy
  | locking =>
    have hfree : s.output_lock = none := by
      refine Option.eq_none_iff_forall_ne_some.mpr fun j hj => ?_
      obtain rfl := hlock j hj
      have hholds := (h j).mp hj
      rwa [hpc] at hholds
    simp [messageStep, hpc, hfree, mutexStep]
  | pushing =>
    have hheld : s.output_lock = some i := (h i).mpr (by rw [hpc]; trivial)
    simp [messageStep, hpc, hheld, mutexStep]
  | _ => simp [messageStep, hpc]

end

/-! ## With -o -/

/-- The map stays empty, nobody makes a message, and the pushes are the lines and the rows. -/
structure Lined (rows log : List Text) (s : SharedState) : Prop where
  anagrams_eq : s.world.anagrams = ∅
  idle : ∀ i, s.messages i = .idle
  pushes_eq : (pushesOf s.world : Multiset Text) = ↑(log.map (· ++ bytes "\n")) + ↑rows

theorem lined_start : Lined [] [] .start := ⟨rfl, fun _ => rfl, rfl⟩

section
variable {flags : AnagramFlags} {rows log : List Text} {s t : SharedState}

/-- An anagram is one push. -/
theorem Lined.record_eq (h : Lined rows log s) (hdirect : flags.output_directly = true) (i : Nat)
    (worker : WorkerAt) (x : Text) :
    s.record flags i worker x = { s with world := s.world.push (x ++ bytes "\n") } := by
  have hnew : s.world.anagrams.contains x = false := by
    rw [h.anagrams_eq]
    exact Std.TreeMap.contains_emptyc
  unfold SharedState.record
  split
  · simp [addAnagram, hnew, hdirect]
  · simp [hdirect]

theorem Lined.push_line (h : Lined rows log s) (x : Text) :
    Lined rows (log ++ [x]) { s with world := s.world.push (x ++ bytes "\n") } := by
  refine ⟨h.anagrams_eq, h.idle, ?_⟩
  rw [pushesOf_push, ← Multiset.coe_add, h.pushes_eq, List.map_append, ← Multiset.coe_add,
    add_assoc, add_comm (rows : Multiset Text), ← add_assoc]
  rfl

theorem Lined.push_row (h : Lined rows log s) (row : Text) :
    Lined (rows ++ [row]) log { s with world := s.world.push row } := by
  refine ⟨h.anagrams_eq, h.idle, ?_⟩
  rw [pushesOf_push, ← Multiset.coe_add, h.pushes_eq, add_assoc, Multiset.coe_add rows]

end

/-! ## Without -o -/

/-- The messages that a worker may still push for its phrase. -/
def MessageAt.owes : MessageAt → Nat
  | .idle => 0
  | .pushing => 0
  | _ => 1

/-- The decrements of the throttle that it has before it. -/
def MessageAt.decrements : MessageAt → Nat
  | .reading => 1
  | .storing _ => 1
  | _ => 0

/-- A sum over the workers changes with one of them. -/
theorem sum_setMessage (f : MessageAt → Nat) (s : SharedState) {i n : Nat} (hi : i < n)
    (m : MessageAt) :
    ∑ j ∈ Finset.range n, f ((s.setMessage i m).messages j) + f (s.messages i) =
      ∑ j ∈ Finset.range n, f (s.messages j) + f m := by
  have hmem := Finset.mem_range.mpr hi
  have hnew := Finset.add_sum_erase (Finset.range n)
    (fun j => f ((s.setMessage i m).messages j)) hmem
  have hold := Finset.add_sum_erase (Finset.range n) (fun j => f (s.messages j)) hmem
  have hothers : ∑ j ∈ (Finset.range n).erase i, f ((s.setMessage i m).messages j) =
      ∑ j ∈ (Finset.range n).erase i, f (s.messages j) :=
    Finset.sum_congr rfl fun j hj => by rw [setMessage_ne s (Finset.ne_of_mem_erase hj)]
  rw [setMessage_self] at hnew
  omega

/-- What the first `n` workers owe together. -/
def SharedState.owed (s : SharedState) (n : Nat) : Nat :=
  ∑ i ∈ Finset.range n, (s.messages i).owes

def SharedState.decrements (s : SharedState) (n : Nat) : Nat :=
  ∑ i ∈ Finset.range n, (s.messages i).decrements

/-- The map has the anagrams, and the pushes are rows and messages: one for each word, and no more
than one for each phrase. The throttle may lose a decrement or a reset, but it does not rise above
100, and for each phrase it sinks by one at most. -/
structure Mapped (n singles : Nat) (rows log : List Text) (s : SharedState) : Prop where
  anagrams_eq : s.world.anagrams = mapOf log
  pushes : ∀ text ∈ pushesOf s.world, text ∈ rows ∨ ∃ k ≤ log.length, text = foundMessage k
  length_ge : singles + rows.length ≤ (pushesOf s.world).length
  length_le : (pushesOf s.world).length + s.owed n ≤ log.length + rows.length
  throttle_le : s.world.output_queue_throttle ≤ 100
  throttle_ge : (100 : Int) + s.decrements n ≤ s.world.output_queue_throttle + log.length
  storing : ∀ i throttle, s.messages i = .storing throttle →
    throttle ≤ 100 ∧ (100 : Int) + s.decrements n ≤ throttle + log.length

theorem mapped_start (n : Nat) : Mapped n 0 [] [] .start where
  anagrams_eq := rfl
  pushes := by simp [pushesOf, SharedState.start, World.start]
  length_ge := le_rfl
  length_le := by
    simp [pushesOf, SharedState.start, SharedState.owed, World.start, MessageAt.owes]
  throttle_le := by decide
  throttle_ge := by
    simp [SharedState.start, SharedState.decrements, World.start, MessageAt.decrements,
      kOutputQueueThrottleFrequency]
  storing i throttle h := by cases h

theorem size_mapOf_le (keys : List Text) : (mapOf keys).size ≤ keys.length := by
  induction keys using List.reverseRecOn with
  | nil => exact le_rfl
  | append_singleton keys key ih =>
    rw [mapOf_snoc, List.length_append, List.length_singleton]
    exact Std.TreeMap.size_insert_le.trans (Nat.succ_le_succ ih)

section
variable {flags : AnagramFlags} {n singles : Nat} {rows log : List Text} {s t : SharedState}

theorem Mapped.write_eq (h : Mapped n singles rows log s) (x : Text) :
    (s.world.write x).anagrams = mapOf (log ++ [x]) := by
  rw [mapOf_snoc, ← h.anagrams_eq]
  rfl

theorem Mapped.size_le (h : Mapped n singles rows log s) :
    s.world.anagrams.size ≤ log.length := by
  rw [h.anagrams_eq]
  exact size_mapOf_le log

theorem Mapped.size_write_le (h : Mapped n singles rows log s) (x : Text) :
    (s.world.write x).anagrams.size ≤ log.length + 1 := by
  rw [h.write_eq]
  exact (size_mapOf_le _).trans (by simp)

/-- What is a row or a message stays one. -/
theorem Mapped.pushes_mono (h : Mapped n singles rows log s) {rows' log' : List Text}
    (hrows : ∀ row ∈ rows, row ∈ rows') (hlog : log.length ≤ log'.length) :
    ∀ text ∈ pushesOf s.world, text ∈ rows' ∨ ∃ k ≤ log'.length, text = foundMessage k := by
  intro text htext
  rcases h.pushes text htext with hrow | ⟨k, hk, rfl⟩
  · exact Or.inl (hrows text hrow)
  · exact Or.inr ⟨k, hk.trans hlog, rfl⟩

/-- A word goes to the map, and a message to the queue. -/
theorem Mapped.single (h : Mapped n singles rows log s) {x : Text} {w : World}
    (hw : w = (s.world.write x).push (foundMessage (s.world.write x).anagrams.size)) :
    Mapped n (singles + 1) rows (log ++ [x]) { s with world := w } := by
  subst hw
  have hlength : (log ++ [x]).length = log.length + 1 := by simp
  have hpushes : (pushesOf ((s.world.write x).push
      (foundMessage (s.world.write x).anagrams.size))).length = (pushesOf s.world).length + 1 := by
    simp
  have hge := h.length_ge
  have hle := h.length_le
  have hthrottle := h.throttle_ge
  refine ⟨h.write_eq x, fun text htext => ?_, ?_, ?_, h.throttle_le, ?_, fun i m hm => ?_⟩
  · rw [pushesOf_push, pushesOf_write, List.mem_append, List.mem_singleton] at htext
    rcases htext with htext | rfl
    · exact h.pushes_mono (fun _ hrow => hrow) (by omega) text htext
    · exact Or.inr ⟨_, hlength ▸ h.size_write_le x, rfl⟩
  · rw [hpushes]
    omega
  · rw [hpushes, hlength]
    change _ + s.owed n ≤ _
    omega
  · rw [hlength, Nat.cast_succ]
    change 100 + (s.decrements n : Int) ≤ s.world.output_queue_throttle + _
    omega
  · obtain ⟨hm100, hmge⟩ := h.storing i m hm
    refine ⟨hm100, ?_⟩
    rw [hlength, Nat.cast_succ]
    change 100 + (s.decrements n : Int) ≤ m + _
    omega

/-- A phrase goes to the map, and its worker has the throttle before it. -/
theorem Mapped.phrase (h : Mapped n singles rows log s) {i : Nat} (hi : i < n)
    (hidle : s.messages i = .idle) (x : Text) :
    Mapped n singles rows (log ++ [x])
      { s.setMessage i .reading with world := s.world.write x } := by
  have hlength : (log ++ [x]).length = log.length + 1 := by simp
  have howed : (s.setMessage i .reading).owed n = s.owed n + 1 := by
    have hsum := sum_setMessage MessageAt.owes s hi .reading
    rw [hidle] at hsum
    exact hsum
  have hdecrements : (s.setMessage i .reading).decrements n = s.decrements n + 1 := by
    have hsum := sum_setMessage MessageAt.decrements s hi .reading
    rw [hidle] at hsum
    exact hsum
  have hle := h.length_le
  have hthrottle := h.throttle_ge
  refine ⟨h.write_eq x, fun text htext => ?_, ?_, ?_, h.throttle_le, ?_, fun j m hm => ?_⟩
  · rw [pushesOf_write] at htext
    exact h.pushes_mono (fun _ hrow => hrow) (by omega) text htext
  · rw [pushesOf_write]
    exact h.length_ge
  · rw [pushesOf_write, hlength]
    change _ + (s.setMessage i .reading).owed n ≤ _
    omega
  · change 100 + ((s.setMessage i .reading).decrements n : Int) ≤ s.world.output_queue_throttle + _
    rw [hlength, hdecrements]
    omega
  · have hj : j ≠ i := by
      rintro rfl
      simp at hm
    change (s.setMessage i .reading).messages j = _ at hm
    rw [setMessage_ne s hj] at hm
    obtain ⟨hm100, hmge⟩ := h.storing j m hm
    refine ⟨hm100, ?_⟩
    change 100 + ((s.setMessage i .reading).decrements n : Int) ≤ m + _
    rw [hlength, hdecrements]
    omega

/-- A worker goes on behind its phrase. What it owes gets less with each message. -/
theorem Mapped.go (h : Mapped n singles rows log s) {i : Nat} (hi : i < n) {m : MessageAt}
    (hmessages : t.messages = (s.setMessage i m).messages)
    (hanagrams : t.world.anagrams = s.world.anagrams) {text : Option Text}
    (hpushes : pushesOf t.world = pushesOf s.world ++ text.toList)
    (htext : ∀ y ∈ text, ∃ k ≤ log.length, y = foundMessage k)
    (howes : m.owes + text.toList.length ≤ (s.messages i).owes)
    (hdecrements : m.decrements ≤ (s.messages i).decrements)
    (hle : t.world.output_queue_throttle ≤ 100)
    (hge : (100 : Int) + s.decrements n + m.decrements ≤
      t.world.output_queue_throttle + log.length + (s.messages i).decrements)
    (hstoring : ∀ throttle, m = .storing throttle →
      throttle ≤ 100 ∧ (100 : Int) + s.decrements n ≤ throttle + log.length) :
    Mapped n singles rows log t := by
  have howed : t.owed n + (s.messages i).owes = s.owed n + m.owes := by
    have hsum := sum_setMessage MessageAt.owes s hi m
    rwa [← hmessages] at hsum
  have hdecr : t.decrements n + (s.messages i).decrements = s.decrements n + m.decrements := by
    have hsum := sum_setMessage MessageAt.decrements s hi m
    rwa [← hmessages] at hsum
  have hlength := h.length_le
  refine ⟨hanagrams.trans h.anagrams_eq, fun y hy => ?_, ?_, ?_, hle, by omega, fun j v hj => ?_⟩
  · rw [hpushes, List.mem_append] at hy
    rcases hy with hy | hy
    · exact h.pushes y hy
    · exact Or.inr (htext y (by simpa using hy))
  · rw [hpushes, List.length_append]
    exact h.length_ge.trans (Nat.le_add_right _ _)
  · rw [hpushes, List.length_append]
    omega
  · by_cases hji : j = i
    · subst hji
      rw [hmessages, setMessage_self] at hj
      obtain ⟨hv, hvge⟩ := hstoring v hj
      exact ⟨hv, by omega⟩
    · rw [hmessages, setMessage_ne s hji] at hj
      obtain ⟨hv, hvge⟩ := h.storing j v hj
      exact ⟨hv, by omega⟩

/-- A step that leaves the throttle alone. -/
theorem Mapped.go_on (h : Mapped n singles rows log s) {i : Nat} (hi : i < n) {m : MessageAt}
    (hmessages : t.messages = (s.setMessage i m).messages)
    (hanagrams : t.world.anagrams = s.world.anagrams)
    (hthrottle : t.world.output_queue_throttle = s.world.output_queue_throttle)
    {text : Option Text} (hpushes : pushesOf t.world = pushesOf s.world ++ text.toList)
    (htext : ∀ y ∈ text, ∃ k ≤ log.length, y = foundMessage k)
    (howes : m.owes + text.toList.length ≤ (s.messages i).owes)
    (hdecrements : m.decrements = (s.messages i).decrements)
    (hstoring : ∀ throttle, m = .storing throttle →
      throttle ≤ 100 ∧ (100 : Int) + s.decrements n ≤ throttle + log.length) :
    Mapped n singles rows log t := by
  have hge := h.throttle_ge
  refine h.go hi hmessages hanagrams hpushes htext howes hdecrements.le ?_ ?_ hstoring
  · rw [hthrottle]
    exact h.throttle_le
  · rw [hthrottle, hdecrements]
    omega

theorem Mapped.step (h : Mapped n singles rows log s) {i : Nat} (hi : i < n)
    (hstep : messageStep s i = some t) :
    ∃ text : Option Text, pushesOf t.world = pushesOf s.world ++ text.toList ∧
      (∀ y ∈ text, ∃ k ≤ log.length, y = foundMessage k) ∧ Mapped n singles rows log t := by
  have hsame : pushesOf s.world = pushesOf s.world ++ (none : Option Text).toList :=
    (List.append_nil _).symm
  cases messageMove_of_step hstep with
  | read hpc =>
    refine ⟨none, hsame, by simp, h.go_on hi rfl rfl rfl hsame (by simp) ?_ ?_ ?_⟩
    · simp [hpc, MessageAt.owes]
    · simp [hpc, MessageAt.decrements]
    · rintro v ⟨⟩
      exact ⟨h.throttle_le, h.throttle_ge⟩
  | @store v hpc =>
    obtain ⟨hv, hvge⟩ := h.storing i v hpc
    refine ⟨none, hsame, by simp, h.go hi rfl rfl hsame (by simp) ?_ ?_ ?_ ?_ ?_⟩
    · rw [hpc]
      split_ifs <;> simp [MessageAt.owes]
    · rw [hpc]
      split_ifs <;> simp [MessageAt.decrements]
    · dsimp only
      omega
    · have hnone : (if v - 1 = 0 then MessageAt.resetting else .idle).decrements = 0 := by
        split_ifs <;> rfl
      rw [hnone, hpc]
      simp only [MessageAt.decrements]
      omega
    · intro w hw
      split_ifs at hw
  | reset hpc =>
    have hle := h.throttle_le
    have hge := h.throttle_ge
    refine ⟨none, hsame, by simp, h.go hi rfl rfl hsame (by simp) ?_ ?_ le_rfl ?_ ?_⟩
    · simp [hpc, MessageAt.owes]
    · simp [hpc, MessageAt.decrements]
    · simp only [hpc, MessageAt.decrements, kOutputQueueThrottleFrequency]
      omega
    · rintro v ⟨⟩
  | acquire hpc hlock =>
    refine ⟨none, hsame, by simp, h.go_on hi rfl rfl rfl hsame (by simp) ?_ ?_ ?_⟩
    · simp [hpc, MessageAt.owes]
    · simp [hpc, MessageAt.decrements]
    · rintro v ⟨⟩
  | push hpc =>
    have hpushes : pushesOf (s.world.push (foundMessage s.world.anagrams.size)) =
        pushesOf s.world ++ (some (foundMessage s.world.anagrams.size)).toList :=
      pushesOf_push _ _
    have htext : ∀ y ∈ some (foundMessage s.world.anagrams.size),
        ∃ k ≤ log.length, y = foundMessage k := by
      rintro y ⟨⟩
      exact ⟨_, h.size_le, rfl⟩
    refine ⟨_, hpushes, htext, h.go_on hi rfl rfl rfl hpushes htext ?_ ?_ ?_⟩
    · simp [hpc, MessageAt.owes]
    · simp [hpc, MessageAt.decrements]
    · rintro v ⟨⟩
  | release hpc hlock =>
    refine ⟨none, hsame, by simp, h.go_on hi rfl rfl rfl hsame (by simp) ?_ ?_ ?_⟩
    · simp [hpc, MessageAt.owes]
    · simp [hpc, MessageAt.decrements]
    · rintro v ⟨⟩

theorem Mapped.push_row (h : Mapped n singles rows log s) (row : Text) :
    Mapped n singles (rows ++ [row]) log { s with world := s.world.push row } := by
  have hge := h.length_ge
  have hle := h.length_le
  refine ⟨h.anagrams_eq, fun text htext => ?_, ?_, ?_, h.throttle_le, h.throttle_ge, h.storing⟩
  · rw [pushesOf_push, List.mem_append, List.mem_singleton] at htext
    rcases htext with htext | rfl
    · exact h.pushes_mono (fun _ => List.mem_append_left _) le_rfl text htext
    · exact Or.inl (List.mem_append_right _ (List.mem_singleton_self _))
  · simp only [pushesOf_push, List.length_append, List.length_singleton]
    omega
  · simp only [pushesOf_push, List.length_append, List.length_singleton]
    change _ + s.owed n ≤ _
    omega

end

/-! ## Either way -/

/-- What the workers have done, in the terms of the flags. -/
structure SharedOk (flags : AnagramFlags) (n singles : Nat) (rows log : List Text)
    (s : SharedState) : Prop where
  direct : flags.output_directly = true → Lined rows log s
  map : flags.output_directly = false → Mapped n singles rows log s

theorem sharedOk_start (flags : AnagramFlags) (n : Nat) : SharedOk flags n 0 [] [] .start :=
  ⟨fun _ => lined_start, fun _ => mapped_start n⟩

section
variable {flags : AnagramFlags} {n singles : Nat} {rows log : List Text} {s t : SharedState}

theorem SharedOk.push_row (h : SharedOk flags n singles rows log s) (row : Text) :
    SharedOk flags n singles (rows ++ [row]) log { s with world := s.world.push row } :=
  ⟨fun hdirect => (h.direct hdirect).push_row row, fun hmap => (h.map hmap).push_row row⟩

/-- No more is pushed than there are anagrams and rows. -/
theorem SharedOk.length_le (h : SharedOk flags n singles rows log s) :
    (pushesOf s.world).length ≤ log.length + rows.length := by
  cases hdirect : flags.output_directly with
  | true =>
    have hcard := congrArg Multiset.card (h.direct hdirect).pushes_eq
    simp only [Multiset.card_add, Multiset.coe_card, List.length_map] at hcard
    omega
  | false => exact (Nat.le_add_right _ _).trans (h.map hdirect).length_le

/-- What is pushed with an anagram is its line, or a message. -/
def PushedWith (flags : AnagramFlags) (log : List Text) (x text : Text) : Prop :=
  flags.output_directly = true ∧ text = x ++ bytes "\n" ∨
    flags.output_directly = false ∧ ∃ k ≤ log.length + 1, text = foundMessage k

/-- A worker comes to an anagram of one word. -/
theorem SharedOk.single (h : SharedOk flags n singles rows log s) {x : Text} (hnew : x ∉ log)
    (i : Nat) :
    ∃ text : Option Text,
      pushesOf (s.record flags i .gathering x).world = pushesOf s.world ++ text.toList ∧
      (∀ y ∈ text, PushedWith flags log x y) ∧
      SharedOk flags n (singles + 1) rows (log ++ [x]) (s.record flags i .gathering x) := by
  cases hdirect : flags.output_directly with
  | true =>
    have hlined := h.direct hdirect
    rw [hlined.record_eq hdirect]
    refine ⟨some (x ++ bytes "\n"), pushesOf_push _ _, ?_, fun _ => hlined.push_line x, ?_⟩
    · rintro y ⟨⟩
      exact Or.inl ⟨hdirect, rfl⟩
    · simp [hdirect]
  | false =>
    have hmapped := h.map hdirect
    have hnew' : s.world.anagrams.contains x = false := by
      rw [hmapped.anagrams_eq, ← Bool.not_eq_true, ← Std.TreeMap.mem_iff_contains, mem_mapOf]
      exact hnew
    have hadd : addAnagram flags x s.world =
        (s.world.write x).push (foundMessage (s.world.write x).anagrams.size) := by
      simp [addAnagram, hnew', hdirect]
    refine ⟨some (foundMessage (s.world.write x).anagrams.size), ?_, ?_, by simp [hdirect],
      fun _ => hmapped.single hadd⟩
    · change pushesOf (addAnagram flags x s.world) = _
      rw [hadd, pushesOf_push, pushesOf_write]
      rfl
    · rintro y ⟨⟩
      exact Or.inr ⟨hdirect, _, hmapped.size_write_le x, rfl⟩

/-- A worker comes to a phrase. -/
theorem SharedOk.phrase (h : SharedOk flags n singles rows log s) {i : Nat} (hi : i < n)
    (hidle : s.messages i = .idle) {worker : WorkerAt} (hworker : worker ≠ .gathering) (x : Text) :
    ∃ text : Option Text,
      pushesOf (s.record flags i worker x).world = pushesOf s.world ++ text.toList ∧
      (∀ y ∈ text, PushedWith flags log x y) ∧
      SharedOk flags n singles rows (log ++ [x]) (s.record flags i worker x) := by
  cases hdirect : flags.output_directly with
  | true =>
    have hlined := h.direct hdirect
    rw [hlined.record_eq hdirect]
    refine ⟨some (x ++ bytes "\n"), pushesOf_push _ _, ?_, fun _ => hlined.push_line x, ?_⟩
    · rintro y ⟨⟩
      exact Or.inl ⟨hdirect, rfl⟩
    · simp [hdirect]
  | false =>
    have hrecord : s.record flags i worker x =
        { s.setMessage i .reading with world := s.world.write x } := by
      cases worker <;> first | exact absurd rfl hworker | simp [SharedState.record, hdirect]
    rw [hrecord]
    refine ⟨none, ?_, by simp, by simp [hdirect], fun _ => (h.map hdirect).phrase hi hidle x⟩
    rw [pushesOf_write]
    exact (List.append_nil _).symm

/-- A worker goes on behind a phrase. Then the flag is not set. -/
theorem SharedOk.step (h : SharedOk flags n singles rows log s) {i : Nat} (hi : i < n)
    (hstep : messageStep s i = some t) :
    flags.output_directly = false ∧ ∃ text : Option Text,
      pushesOf t.world = pushesOf s.world ++ text.toList ∧
      (∀ y ∈ text, ∃ k ≤ log.length, y = foundMessage k) ∧
      SharedOk flags n singles rows log t := by
  cases hdirect : flags.output_directly with
  | true =>
    exact absurd ((h.direct hdirect).idle i) (messageMove_of_step hstep).busy
  | false =>
    obtain ⟨text, hpushes, htext, hmapped⟩ := (h.map hdirect).step hi hstep
    exact ⟨rfl, text, hpushes, htext, by simp [hdirect], fun _ => hmapped⟩

end

end anagram
