-- The threads of the output queue: producers in `Push`, the worker that drains
-- the ring, and the thread that ends the worker. Each read of an index, each
-- locked section of `Push` and each step of the worker is atomic, and the lock
-- of the queue is a mutex. The law here: the ring loses nothing as long as
-- each write finds it as the test of `Push` wants it.
import Anagram.OutputQueue
import Anagram.General.Interleaving

open interleaving

namespace anagram

/-! ## The threads -/

/-- Where a producer is: outside `Push`, in its loop before either read of `GetItemTot`, past the
loop, or in `TerminateThread`. -/
inductive ProducerPc
  | idle
  | testing (text : CString)
  | testing_end (text : CString) (start_index : Nat)
  | past_test (text : CString)
  | joining
  | joined

/-- Where the worker is in its loop. `crashed` is where it runs off the memory of the slots. -/
inductive WorkerPc
  | testing
  | asleep
  | acquiring
  | popping
  | printing (item : Nat)
  | releasing
  | exited
  | crashed
deriving DecidableEq

inductive Party (ι : Type)
  | producer (i : ι)
  | worker
deriving DecidableEq

/-- The queue and its threads. `pushed` and `popped` only record what happened: the texts in the
order of their writes, and how many of them were popped. -/
structure QueueState (ι : Type) where
  queue : OutputQueue
  queue_lock : Mutex (Party ι)
  terminate_ : Bool
  producers : ι → ProducerPc
  worker : WorkerPc
  output : List Text
  pushed : List CString
  popped : Nat

inductive QueueAct (ι : Type)
  | call (i : ι) (text : CString)
  | readStart (i : ι)
  | readEnd (i : ι)
  | write (i : ι)
  | test
  | sleep
  | acquire
  | pop
  | print
  | release
  | terminate
  | join

variable {ι : Type}

/-- The texts pushed and not yet popped. -/
def QueueState.pending (s : QueueState ι) : List CString := s.pushed.drop s.popped

/-- The memory of the slots comes from `new`, so it is as it happens to be. -/
def QueueState.start (memory : Nat → UInt8) : QueueState ι :=
  ⟨⟨memory, 0, 0⟩, none, false, fun _ => .idle, .testing, [], [], 0⟩

/-- The loop of `Push` ends when the ring is not full. -/
def fullTot : UInt64 := UInt64.ofNat (kOutputQueueSize - 1)

/-! ## The ring under the threads -/

/-- The slots hold the texts pushed and not yet popped. -/
structure Sound (s : QueueState ι) : Prop where
  popped_le : s.popped ≤ s.pushed.length
  items : s.queue.Items s.pending

/-- Nothing is lost: no more texts are pending than the ring holds, `GetItemTot` counts them, and
each is still in its slot. -/
structure NothingLost (s : QueueState ι) : Prop where
  popped_le : s.popped ≤ s.pushed.length
  pending_le : s.pending.length ≤ kOutputQueueSize - 1
  tot_eq : s.queue.getItemTot.toNat = s.pending.length
  intact : ∀ k text, s.pending[k]? = some text →
    s.queue.SlotHolds ((s.queue.queue_end_index + k) % kOutputQueueSize) text

/-- A write finds the ring as the test of `Push` wants it. -/
def FindsRoom (s : QueueState ι) : QueueAct ι → Prop
  | .write _ => s.queue.getItemTot ≠ fullTot
  | _ => True

theorem sound_start (memory : Nat → UInt8) : Sound (QueueState.start memory : QueueState ι) where
  popped_le := le_rfl
  items := OutputQueue.items_start memory

theorem Sound.nothingLost {s : QueueState ι} (h : Sound s) : NothingLost s where
  popped_le := h.popped_le
  pending_le := h.items.length_le
  tot_eq := h.items.getItemTot_eq
  intact := h.items.slots

/-- There is room for a text when the ring is not full. -/
theorem Sound.room {s : QueueState ι} (h : Sound s) (hroom : s.queue.getItemTot ≠ fullTot) :
    s.pending.length + 1 < kOutputQueueSize := by
  have hle := h.items.length_le
  have hne : s.pending.length ≠ kOutputQueueSize - 1 := fun he =>
    hroom (h.items.getItemTot_eq_max.mpr he)
  omega

/-- A write with room for it. -/
theorem Sound.write {s : QueueState ι} (h : Sound s) (hroom : s.pending.length + 1 <
    kOutputQueueSize) (text : CString) {t : QueueState ι}
    (hqueue : t.queue = s.queue.write (some text)) (hpushed : t.pushed = s.pushed ++ [text])
    (hpopped : t.popped = s.popped) : Sound t where
  popped_le := by
    rw [hpopped, hpushed, List.length_append]
    exact h.popped_le.trans (Nat.le_add_right _ _)
  items := by
    have hitems := h.items.write hroom text
    rw [QueueState.pending, ← List.drop_append_of_le_length h.popped_le] at hitems
    rwa [QueueState.pending, hqueue, hpushed, hpopped]

/-- A pop takes the oldest of the pending texts. -/
theorem Sound.pop {s : QueueState ι} (h : Sound s) {item : Nat}
    (hitem : s.queue.pop.1 = some item) :
    ∃ text, s.pending = text :: s.pushed.drop (s.popped + 1) ∧
      item = s.queue.queue_end_index * kOutputQueueItemSize ∧
      s.queue.SlotHolds s.queue.queue_end_index text ∧
      s.queue.pop.2.Items (s.pushed.drop (s.popped + 1)) := by
  have hitems := h.items
  cases hp : s.pending with
  | nil =>
    rw [hp] at hitems
    rw [hitems.pop_nil] at hitem
    cases hitem
  | cons text texts =>
    rw [hp] at hitems
    obtain ⟨hsome, hslot, hrest⟩ := hitems.pop
    have htail : texts = s.pushed.drop (s.popped + 1) := by
      rw [← List.tail_drop, ← QueueState.pending, hp, List.tail_cons]
    rw [hsome] at hitem
    cases hitem
    exact ⟨text, by rw [htail], rfl, hslot, htail ▸ hrest⟩

theorem pop_queue (q : OutputQueue) : q.pop.2.queue = q.queue := by
  unfold OutputQueue.pop
  split <;> rfl

theorem pop_start_index (q : OutputQueue) : q.pop.2.queue_start_index = q.queue_start_index := by
  unfold OutputQueue.pop
  split <;> rfl

/-- Without items, a pop changes nothing. -/
theorem pop_eq_self {q : OutputQueue} (h : q.pop.1 = none) : q.pop.2 = q := by
  unfold OutputQueue.pop at h ⊢
  split_ifs at h ⊢
  rfl

section Steps

variable [DecidableEq ι]

/-! ## The steps -/

def QueueState.setProducer (s : QueueState ι) (i : ι) (pc : ProducerPc) : QueueState ι :=
  { s with producers := Function.update s.producers i pc }

/-- The steps of `Push` of producer `i`. -/
def pushStep (s : QueueState ι) (i : ι) : QueueAct ι → Option (QueueState ι)
  | .call _ text => match s.producers i with
    | .idle => some (s.setProducer i (.testing text))
    | _ => none
  | .readStart _ => match s.producers i with
    | .testing text => some (s.setProducer i (.testing_end text s.queue.queue_start_index))
    | _ => none
  | .readEnd _ => match s.producers i with
    | .testing_end text start_index =>
      if itemTot start_index s.queue.queue_end_index = fullTot then
        some (s.setProducer i (.testing text))
      else some (s.setProducer i (.past_test text))
    | _ => none
  | .write _ => match s.producers i with
    | .past_test text => do
      let held ← mutexStep s.queue_lock (.acquire (.producer i))
      let free ← mutexStep held (.release (.producer i))
      some { s.setProducer i .idle with
        queue := s.queue.write (some text), queue_lock := free, pushed := s.pushed ++ [text] }
    | _ => none
  | _ => none

/-- The steps of `Worker`. -/
def workerStep (s : QueueState ι) : QueueAct ι → Option (QueueState ι)
  | .test =>
    if s.worker ≠ .testing then none
    else if s.terminate_ then some { s with worker := .exited }
    else some { s with worker := .asleep }
  | .sleep => if s.worker ≠ .asleep then none else some { s with worker := .acquiring }
  | .acquire =>
    if s.worker ≠ .acquiring then none
    else do
      let held ← mutexStep s.queue_lock (.acquire .worker)
      some { s with queue_lock := held, worker := .popping }
  | .pop =>
    if s.worker ≠ .popping then none
    else match s.queue.pop.1 with
      | some item =>
        some { s with queue := s.queue.pop.2, worker := .printing item, popped := s.popped + 1 }
      | none => some { s with queue := s.queue.pop.2, worker := .releasing }
  | .print => match s.worker with
    | .printing item => match s.queue.printed item with
      | some text => some { s with output := s.output ++ [text], worker := .popping }
      | none => some { s with worker := .crashed }
    | _ => none
  | .release =>
    if s.worker ≠ .releasing then none
    else do
      let free ← mutexStep s.queue_lock (.release .worker)
      some { s with queue_lock := free, worker := .testing }
  | _ => none

/-- The steps of `TerminateThread`, which `owner` runs outside `Push`. -/
def ownerStep (owner : ι) (s : QueueState ι) : QueueAct ι → Option (QueueState ι)
  | .terminate => match s.producers owner with
    | .idle => some { s.setProducer owner .joining with terminate_ := true }
    | _ => none
  | .join => match s.producers owner with
    | .joining => if s.worker ≠ .exited then none else some (s.setProducer owner .joined)
    | _ => none
  | _ => none

def queueStep (owner : ι) (s : QueueState ι) (a : QueueAct ι) : Option (QueueState ι) :=
  match a with
  | .call i _ | .readStart i | .readEnd i | .write i => pushStep s i a
  | .terminate | .join => ownerStep owner s a
  | _ => workerStep s a

/-! ## What one step does -/

/-- All that a step can do. -/
inductive QueueMove (owner : ι) (s : QueueState ι) : QueueAct ι → QueueState ι → Prop
  | call {i : ι} {text : CString} (h : s.producers i = .idle) :
      QueueMove owner s (.call i text) (s.setProducer i (.testing text))
  | readStart {i : ι} {text : CString} (h : s.producers i = .testing text) :
      QueueMove owner s (.readStart i)
        (s.setProducer i (.testing_end text s.queue.queue_start_index))
  | again {i : ι} {text : CString} {n : Nat} (h : s.producers i = .testing_end text n) :
      QueueMove owner s (.readEnd i) (s.setProducer i (.testing text))
  | pass {i : ι} {text : CString} {n : Nat} (h : s.producers i = .testing_end text n)
      (htot : itemTot n s.queue.queue_end_index ≠ fullTot) :
      QueueMove owner s (.readEnd i) (s.setProducer i (.past_test text))
  | write {i : ι} {text : CString} (h : s.producers i = .past_test text)
      (hlock : s.queue_lock = none) :
      QueueMove owner s (.write i) { s.setProducer i .idle with
        queue := s.queue.write (some text), queue_lock := none, pushed := s.pushed ++ [text] }
  | exit (h : s.worker = .testing) (hterm : s.terminate_ = true) :
      QueueMove owner s .test { s with worker := .exited }
  | stay (h : s.worker = .testing) (hterm : s.terminate_ = false) :
      QueueMove owner s .test { s with worker := .asleep }
  | sleep (h : s.worker = .asleep) : QueueMove owner s .sleep { s with worker := .acquiring }
  | acquire (h : s.worker = .acquiring) (hlock : s.queue_lock = none) :
      QueueMove owner s .acquire { s with queue_lock := some .worker, worker := .popping }
  | pop {item : Nat} (h : s.worker = .popping) (hitem : s.queue.pop.1 = some item) :
      QueueMove owner s .pop
        { s with queue := s.queue.pop.2, worker := .printing item, popped := s.popped + 1 }
  | drained (h : s.worker = .popping) (hnone : s.queue.pop.1 = none) :
      QueueMove owner s .pop { s with queue := s.queue.pop.2, worker := .releasing }
  | print {item : Nat} {text : Text} (h : s.worker = .printing item)
      (htext : s.queue.printed item = some text) :
      QueueMove owner s .print { s with output := s.output ++ [text], worker := .popping }
  | crash {item : Nat} (h : s.worker = .printing item) (htext : s.queue.printed item = none) :
      QueueMove owner s .print { s with worker := .crashed }
  | release (h : s.worker = .releasing) (hlock : s.queue_lock = some .worker) :
      QueueMove owner s .release { s with queue_lock := none, worker := .testing }
  | terminate (h : s.producers owner = .idle) :
      QueueMove owner s .terminate { s.setProducer owner .joining with terminate_ := true }
  | join (h : s.producers owner = .joining) (hexit : s.worker = .exited) :
      QueueMove owner s .join (s.setProducer owner .joined)

theorem queueMove_of_step {owner : ι} {s t : QueueState ι} {a : QueueAct ι}
    (h : queueStep owner s a = some t) : QueueMove owner s a t := by
  cases a with
  | call i text =>
    simp only [queueStep, pushStep] at h
    split at h <;> cases h
    exact .call ‹_›
  | readStart i =>
    simp only [queueStep, pushStep] at h
    split at h <;> cases h
    exact .readStart ‹_›
  | readEnd i =>
    simp only [queueStep, pushStep] at h
    split at h
    · split_ifs at h with htot <;> cases h
      · exact .again ‹_›
      · exact .pass ‹_› htot
    · cases h
  | write i =>
    simp only [queueStep, pushStep] at h
    split at h
    · obtain ⟨held, hheld, h⟩ := Option.bind_eq_some_iff.mp h
      obtain ⟨free, hfree, h⟩ := Option.bind_eq_some_iff.mp h
      obtain ⟨hlock, rfl⟩ := mutexStep_acquire.mp hheld
      obtain ⟨_, rfl⟩ := mutexStep_release.mp hfree
      cases h
      exact .write ‹_› hlock
    · cases h
  | test =>
    simp only [queueStep, workerStep] at h
    split_ifs at h with hpc hterm <;> cases h
    · exact .exit (not_ne_iff.mp hpc) hterm
    · exact .stay (not_ne_iff.mp hpc) (by simpa using hterm)
  | sleep =>
    simp only [queueStep, workerStep] at h
    split_ifs at h with hpc
    cases h
    exact .sleep (not_ne_iff.mp hpc)
  | acquire =>
    simp only [queueStep, workerStep] at h
    split_ifs at h with hpc
    obtain ⟨held, hheld, h⟩ := Option.bind_eq_some_iff.mp h
    obtain ⟨hlock, rfl⟩ := mutexStep_acquire.mp hheld
    cases h
    exact .acquire (not_ne_iff.mp hpc) hlock
  | pop =>
    simp only [queueStep, workerStep] at h
    split_ifs at h with hpc
    split at h <;> cases h
    · exact .pop (not_ne_iff.mp hpc) ‹_›
    · exact .drained (not_ne_iff.mp hpc) ‹_›
  | print =>
    simp only [queueStep, workerStep] at h
    split at h
    · split at h <;> cases h
      · exact .print ‹_› ‹_›
      · exact .crash ‹_› ‹_›
    · cases h
  | release =>
    simp only [queueStep, workerStep] at h
    split_ifs at h with hpc
    obtain ⟨free, hfree, h⟩ := Option.bind_eq_some_iff.mp h
    obtain ⟨hlock, rfl⟩ := mutexStep_release.mp hfree
    cases h
    exact .release (not_ne_iff.mp hpc) hlock
  | terminate =>
    simp only [queueStep, ownerStep] at h
    split at h <;> cases h
    exact .terminate ‹_›
  | join =>
    simp only [queueStep, ownerStep] at h
    split at h
    · split_ifs at h with hexit
      cases h
      exact .join ‹_› (not_ne_iff.mp hexit)
    · cases h

/-! ## Runs -/

theorem sound_step {owner : ι} {s t : QueueState ι} {a : QueueAct ι} (hs : Sound s)
    (hroom : FindsRoom s a) (h : queueStep owner s a = some t) : Sound t := by
  cases queueMove_of_step h with
  | write hpc hlock => exact hs.write (hs.room hroom) _ rfl rfl rfl
  | pop hpc hitem =>
    obtain ⟨text, hp, _, _, hitems⟩ := hs.pop hitem
    refine ⟨?_, hitems⟩
    have hlen := congrArg List.length hp
    simp only [QueueState.pending, List.length_drop, List.length_cons] at hlen ⊢
    omega
  | drained hpc hnone => exact ⟨hs.popped_le, by rw [pop_eq_self hnone]; exact hs.items⟩
  | _ => exact ⟨hs.popped_le, hs.items⟩

/-- Producers and the consumer lose nothing in a run exactly when each write finds the ring as
the test of `Push` wants it. -/
theorem the_ring_loses_nothing_iff_each_write_finds_room (owner : ι) (memory : Nat → UInt8)
    (as : List (QueueAct ι)) :
    Always (queueStep owner) NothingLost (QueueState.start memory) as ↔
      Along (queueStep owner) FindsRoom (QueueState.start memory) as := by
  refine always_iff_along (fun s a t => sound_step) (fun s => Sound.nothingLost) ?_
    (sound_start memory)
  intro s a t hs hfull h hlost
  cases queueMove_of_step h with
  | @write i text hpc hlock =>
    have hmax := hs.items.getItemTot_eq_max.mp (not_ne_iff.mp hfull)
    have hle : ((s.pushed ++ [text]).drop s.popped).length ≤ kOutputQueueSize - 1 :=
      hlost.pending_le
    rw [List.drop_append_of_le_length hs.popped_le, List.length_append, List.length_singleton]
      at hle
    have hpos : 0 < kOutputQueueSize := by decide
    rw [QueueState.pending] at hmax
    omega
  | _ => exact hfull trivial

/-! ## A run that overfills the ring -/

@[simp] theorem setProducer_self (s : QueueState ι) (i : ι) (pc : ProducerPc) :
    (s.setProducer i pc).producers i = pc := Function.update_self ..

theorem setProducer_ne (s : QueueState ι) {i j : ι} (h : j ≠ i) (pc : ProducerPc) :
    (s.setProducer i pc).producers j = s.producers j := Function.update_of_ne h ..

theorem Sound.setProducer {s : QueueState ι} (h : Sound s) (i : ι) (pc : ProducerPc) :
    Sound (s.setProducer i pc) := ⟨h.popped_le, h.items⟩

/-- With room in the ring, the loop of `Push` ends at its first test. -/
theorem run_test (owner : ι) {s : QueueState ι} (hs : Sound s)
    (hroom : s.pending.length < kOutputQueueSize - 1) {i : ι} (hi : s.producers i = .idle)
    (text : CString) :
    ∃ t, run (queueStep owner) s [.call i text, .readStart i, .readEnd i] = some t ∧
      t = s.setProducer i (.past_test text) := by
  have hidem : ∀ pc pc' : ProducerPc, (s.setProducer i pc).setProducer i pc' =
      s.setProducer i pc' := by
    intro pc pc'
    simp [QueueState.setProducer]
  have htot : itemTot s.queue.queue_start_index s.queue.queue_end_index ≠ fullTot := fun h =>
    hroom.ne (hs.items.getItemTot_eq_max.mp h)
  refine ⟨_, ?_, rfl⟩
  have h1 : queueStep owner s (.call i text) = some (s.setProducer i (.testing text)) := by
    simp [queueStep, pushStep, hi]
  have h2 : queueStep owner (s.setProducer i (.testing text)) (.readStart i) =
      some (s.setProducer i (.testing_end text s.queue.queue_start_index)) := by
    simp [queueStep, pushStep, hidem]
    rfl
  have h3 : queueStep owner (s.setProducer i (.testing_end text s.queue.queue_start_index))
      (.readEnd i) = some (s.setProducer i (.past_test text)) := by
    simp only [queueStep, pushStep, setProducer_self, hidem]
    exact if_neg htot
  rw [run_cons h1, run_cons h2, run_cons h3, run_nil]

/-- The locked section of `Push`. -/
theorem step_write (owner : ι) {s : QueueState ι} {i : ι} {text : CString}
    (hi : s.producers i = .past_test text) (hlock : s.queue_lock = none) :
    queueStep owner s (.write i) = some { s.setProducer i .idle with
      queue := s.queue.write (some text), queue_lock := none, pushed := s.pushed ++ [text] } := by
  simp [queueStep, pushStep, hi, hlock, mutexStep]

/-- One producer fills the ring up to `n` texts. -/
theorem run_fill (owner i : ι) (memory : Nat → UInt8) (text : CString) (n : Nat)
    (hn : n ≤ kOutputQueueSize - 1) :
    ∃ as s, run (queueStep owner) (QueueState.start memory) as = some s ∧ Sound s ∧
      s.queue_lock = none ∧ (∀ j, s.producers j = .idle) ∧ s.pushed.length = n ∧ s.popped = 0 := by
  induction n with
  | zero =>
    exact ⟨[], _, rfl, sound_start memory, rfl, fun _ => rfl, rfl, rfl⟩
  | succ n ih =>
    obtain ⟨as, s, hrun, hs, hlock, hidle, hlen, hpopped⟩ := ih (by omega)
    have hpending : s.pending.length = n := by
      rw [QueueState.pending, List.length_drop, hlen, hpopped, Nat.sub_zero]
    obtain ⟨_, htest, rfl⟩ := run_test owner hs (by omega) (hidle i) text
    have hwrite := step_write owner (setProducer_self s i (.past_test text)) hlock
    refine ⟨_, _, run_snoc ((run_append hrun).trans htest) hwrite,
      (hs.setProducer i (.past_test text)).write ?_ text rfl rfl rfl, rfl, fun j => ?_, ?_,
      hpopped⟩
    · change s.pending.length + 1 < kOutputQueueSize
      omega
    · by_cases hj : j = i
      · subst hj
        exact setProducer_self ..
      · rw [← hidle j, ← setProducer_ne s hj (.past_test text)]
        exact setProducer_ne _ hj _
    · rw [List.length_append, List.length_singleton]
      exact congrArg (· + 1) hlen

end Steps

/-- Two producers pass the test while one slot is left for both. -/
theorem two_producers_overfill_the_ring :
    ¬ ∀ (memory : Nat → UInt8) (as : List (QueueAct Nat)),
      Always (queueStep 0) NothingLost (QueueState.start memory) as := by
  intro hall
  have hnul : (0 : UInt8) ∉ ([] : Text) := by simp
  let text : CString := ⟨[], hnul⟩
  obtain ⟨as, s, hrun, hs, hlock, hidle, hlen, hpopped⟩ :=
    run_fill 0 0 (fun _ => 0) text 254 (by decide)
  have hpending : s.pending.length = 254 := by
    rw [QueueState.pending, List.length_drop, hlen, hpopped]
  obtain ⟨t, htest0, rfl⟩ := run_test 0 hs (by rw [hpending]; decide) (hidle 0) text
  have hidle1 : (s.setProducer 0 (.past_test text)).producers 1 = .idle :=
    (setProducer_ne s (by decide) _).trans (hidle 1)
  obtain ⟨t, htest1, rfl⟩ := run_test 0 (hs.setProducer 0 (.past_test text))
    (by change s.pending.length < _; rw [hpending]; decide) hidle1 text
  have hboth := (run_append ((run_append hrun).trans htest0)).trans htest1
  have hover := run_snoc (run_snoc hboth (step_write 0 (i := 0) rfl hlock))
    (step_write 0 (i := 1) rfl rfl)
  have hle := ((hall _ _).of_run hover).pending_le
  simp [QueueState.pending, QueueState.setProducer, hlen, hpopped, kOutputQueueSize] at hle

end anagram
