-- The end of the output queue, with one producer. The worker leaves its loop
-- when it reads `terminate_`, and does not look at the ring again. The laws:
-- what is printed is always the oldest texts in their order, and all of them
-- are printed when the ring is empty at that read.
import Anagram.QueueThreads

open interleaving

namespace anagram

/-! ## Where the one producer and the worker can be -/

/-- The texts of the first `n` pushes. -/
def QueueState.firstTexts (s : QueueState Unit) (n : Nat) : List Text :=
  (s.pushed.take n).map (·.bytes)

/-- The producer finds room where it has tested for it, because the worker only makes more. -/
def ProducerOk (s : QueueState Unit) : Prop :=
  match s.producers () with
  | .idle => s.terminate_ = false
  | .testing text => FitsSlot text ∧ s.terminate_ = false
  | .testing_end text n =>
    FitsSlot text ∧ n = s.queue.queue_start_index ∧ s.terminate_ = false
  | .past_test text =>
    FitsSlot text ∧ s.pending.length + 1 < kOutputQueueSize ∧ s.terminate_ = false
  | .joining => s.terminate_ = true
  | .joined => s.terminate_ = true ∧ s.worker = .exited

/-- What is popped is printed, but for the text that the worker is about to print. -/
def WorkerOk (s : QueueState Unit) : Prop :=
  match s.worker with
  | .testing | .asleep | .acquiring => s.queue_lock = none ∧ s.output = s.firstTexts s.popped
  | .popping | .releasing => s.queue_lock = some .worker ∧ s.output = s.firstTexts s.popped
  | .printing item => s.queue_lock = some .worker ∧ ∃ text,
    s.queue.printed item = some text ∧ s.output ++ [text] = s.firstTexts s.popped
  | .exited => s.queue_lock = none ∧ s.terminate_ = true ∧ s.output = s.firstTexts s.popped
  | .crashed => False

structure OneProducer (s : QueueState Unit) : Prop where
  sound : Sound s
  fits : ∀ text ∈ s.pushed, FitsSlot text
  producer : ProducerOk s
  worker : WorkerOk s

/-! ## The conditions on a run -/

/-- A text that is pushed leaves room for its NUL. -/
def PushesFit (_ : QueueState Unit) : QueueAct Unit → Prop
  | .call _ text => FitsSlot text
  | _ => True

/-- When the worker reads that `terminate_` is set, the ring is empty. -/
def ExitsEmpty (s : QueueState Unit) : QueueAct Unit → Prop
  | .test => s.terminate_ = true → s.queue.getItemTot = 0
  | _ => True

/-- When the join has returned, the output is what was pushed: each text once, in their order. -/
def AllPrinted (s : QueueState Unit) : Prop :=
  s.producers () = .joined → s.output = s.pushed.map (·.bytes)

/-- The worker has exited with an empty ring, if it has. -/
def LeftEmpty (s : QueueState Unit) : Prop := s.worker = .exited → s.pending = []

/-! ## One step -/

theorem oneProducer_start (memory : Nat → UInt8) : OneProducer (QueueState.start memory) where
  sound := sound_start memory
  fits := by simp [QueueState.start]
  producer := rfl
  worker := ⟨rfl, rfl⟩

/-- A step of the worker, which has not exited, leaves the producer where it can be. -/
theorem ProducerOk.of_worker {s t : QueueState Unit} (h : ProducerOk s) (hw : s.worker ≠ .exited)
    (hprod : t.producers = s.producers) (hterm : t.terminate_ = s.terminate_)
    (hstart : t.queue.queue_start_index = s.queue.queue_start_index)
    (hpending : t.pending.length ≤ s.pending.length) : ProducerOk t := by
  unfold ProducerOk at h ⊢
  rw [hprod, hterm, hstart]
  split at h
  · exact h
  · exact h
  · exact h
  · exact ⟨h.1, by omega, h.2.2⟩
  · exact h
  · exact absurd h.2 hw

/-- A step of the producer that leaves the ring alone leaves the worker where it can be. -/
theorem WorkerOk.of_producer {s t : QueueState Unit} (h : WorkerOk s)
    (hworker : t.worker = s.worker) (hlock : t.queue_lock = s.queue_lock)
    (hqueue : t.queue = s.queue) (hout : t.output = s.output) (hpushed : t.pushed = s.pushed)
    (hpopped : t.popped = s.popped) (hterm : s.terminate_ = true → t.terminate_ = true) :
    WorkerOk t := by
  unfold WorkerOk QueueState.firstTexts at h ⊢
  rw [hworker, hlock, hqueue, hout, hpushed, hpopped]
  split at h
  all_goals first
    | exact h
    | exact ⟨h.1, hterm h.2.1, h.2.2⟩

/-- While the producer writes, the worker is outside its locked section, and it has not exited. -/
theorem WorkerOk.write {s t : QueueState Unit} (h : WorkerOk s) (hlock : s.queue_lock = none)
    (hterm : s.terminate_ = false) (hpopped : s.popped ≤ s.pushed.length) {text : CString}
    (hworker : t.worker = s.worker) (hfree : t.queue_lock = none) (hout : t.output = s.output)
    (hpushed : t.pushed = s.pushed ++ [text]) (hsame : t.popped = s.popped) : WorkerOk t := by
  have htexts : t.firstTexts t.popped = s.firstTexts s.popped := by
    rw [QueueState.firstTexts, hpushed, hsame, List.take_append_of_le_length hpopped]
    rfl
  unfold WorkerOk at h ⊢
  rw [hworker, hout, hfree, htexts]
  split at h <;> simp_all

theorem firstTexts_succ {s : QueueState Unit} {text : CString} {rest : List CString}
    (h : s.pending = text :: rest) :
    s.firstTexts (s.popped + 1) = s.firstTexts s.popped ++ [text.bytes] := by
  have hget : s.pushed[s.popped]? = some text := by
    rw [← List.head?_drop, ← QueueState.pending, h, List.head?_cons]
  simp [QueueState.firstTexts, List.take_add_one, hget]

/-- The worker has not exited while the producer is in `Push`. -/
theorem OneProducer.not_exited {s : QueueState Unit} (hs : OneProducer s)
    (hterm : s.terminate_ = false) : s.worker ≠ .exited := by
  intro he
  have hw := hs.worker
  rw [WorkerOk, he] at hw
  rw [hterm] at hw
  exact absurd hw.2.1 (by decide)

theorem printed_pop (q : OutputQueue) (item : Nat) : q.pop.2.printed item = q.printed item := by
  rw [OutputQueue.printed, OutputQueue.printed, pop_queue]

theorem OneProducer.producerMove {s t : QueueState Unit} (hs : OneProducer s) {i : Unit}
    {pc : ProducerPc} (ht : t = s.setProducer i pc) (hok : ProducerOk t) : OneProducer t := by
  subst ht
  exact ⟨hs.sound.setProducer i pc, hs.fits, hok, hs.worker.of_producer rfl rfl rfl rfl rfl rfl id⟩

/-- A step of the worker that leaves the ring alone. -/
theorem OneProducer.workerMove {s t : QueueState Unit} (hs : OneProducer s)
    (hpc : s.worker ≠ .exited) (hprod : t.producers = s.producers)
    (hterm : t.terminate_ = s.terminate_) (hqueue : t.queue = s.queue)
    (hpushed : t.pushed = s.pushed) (hpopped : t.popped = s.popped) (hok : WorkerOk t) :
    OneProducer t := by
  have hpending : t.pending = s.pending := by
    rw [QueueState.pending, QueueState.pending, hpushed, hpopped]
  refine ⟨⟨?_, ?_⟩, ?_, ?_, hok⟩
  · rw [hpopped, hpushed]
    exact hs.sound.popped_le
  · rw [hqueue, hpending]
    exact hs.sound.items
  · rw [hpushed]
    exact hs.fits
  · apply hs.producer.of_worker hpc hprod hterm
    · rw [hqueue]
    · rw [hpending]

/-- Each step whose text fits keeps the invariant. -/
theorem oneProducer_step {s t : QueueState Unit} {a : QueueAct Unit} (hs : OneProducer s)
    (hfit : PushesFit s a) (h : queueStep () s a = some t) : OneProducer t := by
  have hp := hs.producer
  have hw := hs.worker
  cases queueMove_of_step h with
  | call hpc =>
    rw [ProducerOk, hpc] at hp
    exact hs.producerMove rfl ⟨hfit, hp⟩
  | readStart hpc =>
    rw [ProducerOk, hpc] at hp
    exact hs.producerMove rfl ⟨hp.1, rfl, hp.2⟩
  | again hpc =>
    rw [ProducerOk, hpc] at hp
    exact hs.producerMove rfl ⟨hp.1, hp.2.2⟩
  | pass hpc htot =>
    rw [ProducerOk, hpc] at hp
    obtain ⟨hf, rfl, hterm⟩ := hp
    exact hs.producerMove rfl ⟨hf, hs.sound.room htot, hterm⟩
  | write hpc hlock =>
    rw [ProducerOk, hpc] at hp
    obtain ⟨hf, hroom, hterm⟩ := hp
    refine ⟨hs.sound.write hroom _ rfl rfl rfl, fun text ht => ?_, hterm,
      hw.write hlock hterm hs.sound.popped_le rfl rfl rfl rfl rfl⟩
    rcases List.mem_append.mp ht with ht | ht
    · exact hs.fits text ht
    · exact List.mem_singleton.mp ht ▸ hf
  | exit hpc hterm =>
    rw [WorkerOk, hpc] at hw
    exact hs.workerMove (by simp [hpc]) rfl rfl rfl rfl rfl ⟨hw.1, hterm, hw.2⟩
  | stay hpc hterm =>
    rw [WorkerOk, hpc] at hw
    exact hs.workerMove (by simp [hpc]) rfl rfl rfl rfl rfl hw
  | sleep hpc =>
    rw [WorkerOk, hpc] at hw
    exact hs.workerMove (by simp [hpc]) rfl rfl rfl rfl rfl hw
  | acquire hpc hlock =>
    rw [WorkerOk, hpc] at hw
    exact hs.workerMove (by simp [hpc]) rfl rfl rfl rfl rfl ⟨rfl, hw.2⟩
  | pop hpc hitem =>
    rw [WorkerOk, hpc] at hw
    obtain ⟨text, hpending, rfl, hslot, _⟩ := hs.sound.pop hitem
    have hmem : text ∈ s.pushed := by
      refine List.mem_of_mem_drop (i := s.popped) ?_
      rw [← QueueState.pending, hpending]
      exact List.mem_cons_self
    refine ⟨sound_step (a := .pop) hs.sound trivial h, hs.fits,
      hp.of_worker (by simp [hpc]) rfl rfl (pop_start_index _) ?_, hw.1, text.bytes, ?_, ?_⟩
    · rw [hpending]
      exact Nat.le_succ _
    · rw [printed_pop]
      exact hslot.printed hs.sound.items.first_lt (hs.fits text hmem)
    · exact (congrArg (· ++ [text.bytes]) hw.2).trans (firstTexts_succ hpending).symm
  | drained hpc hnone =>
    rw [WorkerOk, hpc] at hw
    exact ⟨sound_step (a := .pop) hs.sound trivial h, hs.fits,
      hp.of_worker (by simp [hpc]) rfl rfl (pop_start_index _) le_rfl, hw⟩
  | print hpc htext =>
    rw [WorkerOk, hpc] at hw
    obtain ⟨hlock, text, hprinted, hout⟩ := hw
    obtain rfl := Option.some.inj (htext.symm.trans hprinted)
    exact hs.workerMove (by simp [hpc]) rfl rfl rfl rfl rfl ⟨hlock, hout⟩
  | crash hpc htext =>
    rw [WorkerOk, hpc] at hw
    obtain ⟨_, text, hprinted, _⟩ := hw
    rw [htext] at hprinted
    cases hprinted
  | release hpc hlock =>
    rw [WorkerOk, hpc] at hw
    exact hs.workerMove (by simp [hpc]) rfl rfl rfl rfl rfl ⟨rfl, hw.2⟩
  | terminate hpc =>
    exact ⟨⟨hs.sound.popped_le, hs.sound.items⟩, hs.fits, rfl,
      hw.of_producer rfl rfl rfl rfl rfl rfl fun _ => rfl⟩
  | join hpc hexit =>
    rw [ProducerOk, hpc] at hp
    exact hs.producerMove rfl ⟨hp, hexit⟩

/-- The worker leaves an empty ring exactly when it finds one at its exit. -/
theorem leftEmpty_step {s t : QueueState Unit} {a : QueueAct Unit} (hs : OneProducer s)
    (h : queueStep () s a = some t) : LeftEmpty t ↔ LeftEmpty s ∧ ExitsEmpty s a := by
  have hp := hs.producer
  cases queueMove_of_step h with
  | write hpc hlock =>
    rw [ProducerOk, hpc] at hp
    have hne := hs.not_exited hp.2.2
    exact iff_of_true (fun he => absurd he hne) ⟨fun he => absurd he hne, trivial⟩
  | exit hpc hterm =>
    have hout : LeftEmpty s := fun he => by
      rw [hpc] at he
      cases he
    have hzero := hs.sound.items.getItemTot_eq_zero
    exact ⟨fun hl => ⟨hout, fun _ => hzero.mpr (hl rfl)⟩, fun hl _ => hzero.mp (hl.2 hterm)⟩
  | stay hpc hterm =>
    simp [LeftEmpty, ExitsEmpty, hpc, hterm]
  | sleep hpc => simp [LeftEmpty, ExitsEmpty, hpc]
  | acquire hpc => simp [LeftEmpty, ExitsEmpty, hpc]
  | pop hpc => simp [LeftEmpty, ExitsEmpty, hpc]
  | drained hpc => simp [LeftEmpty, ExitsEmpty, hpc]
  | print hpc => simp [LeftEmpty, ExitsEmpty, hpc]
  | crash hpc => simp [LeftEmpty, ExitsEmpty, hpc]
  | release hpc => simp [LeftEmpty, ExitsEmpty, hpc]
  | _ => exact (and_iff_left trivial).symm

/-! ## What is printed when the join returns -/

theorem OneProducer.joined {s : QueueState Unit} (hs : OneProducer s)
    (hj : s.producers () = .joined) : s.worker = .exited ∧ s.output = s.firstTexts s.popped := by
  have hp := hs.producer
  have hw := hs.worker
  rw [ProducerOk, hj] at hp
  rw [WorkerOk, hp.2] at hw
  exact ⟨hp.2, hw.2.2⟩

/-- When the worker has left, all is printed exactly when it has left an empty ring. -/
theorem OneProducer.printed_iff {s : QueueState Unit} (hs : OneProducer s)
    (hj : s.producers () = .joined) : s.output = s.pushed.map (·.bytes) ↔ LeftEmpty s := by
  obtain ⟨hexit, hout⟩ := hs.joined hj
  rw [hout, QueueState.firstTexts]
  constructor
  · intro h _
    have hlen := congrArg List.length h
    simp only [List.length_map, List.length_take] at hlen
    exact List.drop_eq_nil_of_le (by omega)
  · intro h
    have hle := List.drop_eq_nil_iff.mp (h hexit)
    rw [List.take_of_length_le hle]

/-- With one producer whose texts fit their slots, everything is printed, once and in order, in
every run in which the worker finds an empty ring when it reads that `terminate_` is set. In a
run up to the return of the join, that is the exact condition. -/
theorem everything_is_printed_when_the_worker_exits_with_an_empty_ring (memory : Nat → UInt8)
    (as : List (QueueAct Unit)) :
    (Along (queueStep ()) (fun s a => PushesFit s a ∧ ExitsEmpty s a) (QueueState.start memory) as →
      Always (queueStep ()) AllPrinted (QueueState.start memory) as) ∧
    ∀ t, run (queueStep ()) (QueueState.start memory) as = some t → t.producers () = .joined →
      Along (queueStep ()) PushesFit (QueueState.start memory) as →
      (AllPrinted t ↔ Along (queueStep ()) ExitsEmpty (QueueState.start memory) as) := by
  have hleft : LeftEmpty (QueueState.start memory) := by
    intro he
    cases he
  constructor
  · refine always_of_along (I := fun s => OneProducer s ∧ LeftEmpty s) ?_ ?_
      ⟨oneProducer_start memory, hleft⟩
    · rintro s a t ⟨hs, hl⟩ ⟨hfit, hexit⟩ h
      exact ⟨oneProducer_step hs hfit h, (leftEmpty_step hs h).mpr ⟨hl, hexit⟩⟩
    · rintro s ⟨hs, hl⟩ hj
      exact (hs.printed_iff hj).mpr hl
  · intro t hrun hj hfit
    obtain ⟨ht, hiff⟩ := along_iff_of_run (I := OneProducer) (R := LeftEmpty) (P := ExitsEmpty)
      (fun s a t hs hfit h => ⟨oneProducer_step hs hfit h, leftEmpty_step hs h⟩)
      (oneProducer_start memory) hfit hrun
    rw [and_iff_right hleft] at hiff
    rw [← hiff, ← ht.printed_iff hj]
    exact ⟨fun hall => hall hj, fun h _ => h⟩

instance (s : QueueState Unit) : (a : QueueAct Unit) → Decidable (PushesFit s a)
  | .call _ text => inferInstanceAs (Decidable (text.bytes.length < kOutputQueueItemSize))
  | .readStart _ | .readEnd _ | .write _ | .test | .sleep | .acquire | .pop | .print | .release
  | .terminate | .join => isTrue trivial

instance (s : QueueState Unit) : (a : QueueAct Unit) → Decidable (ExitsEmpty s a)
  | .test => inferInstanceAs (Decidable (s.terminate_ = true → s.queue.getItemTot = 0))
  | .call _ _ | .readStart _ | .readEnd _ | .write _ | .sleep | .acquire | .pop | .print | .release
  | .terminate | .join => isTrue trivial

theorem nul_not_mem_tea : (0 : UInt8) ∉ bytes "tea" := by decide

/-- A text is pushed and printed, and then `terminate_` is set and read. -/
def teaInTime : List (QueueAct Unit) :=
  [.call () ⟨bytes "tea", nul_not_mem_tea⟩, .readStart (), .readEnd (), .write (), .test, .sleep,
    .acquire, .pop, .print, .pop, .release, .terminate, .test, .join]

theorem the_text_is_printed_in_time :
    ∃ t, run (queueStep ()) (QueueState.start fun _ => 0) teaInTime = some t ∧
      t.producers () = .joined ∧ t.output = [bytes "tea"] ∧
      Always (queueStep ()) AllPrinted (QueueState.start fun _ => 0) teaInTime := by
  have hends : (run (queueStep ()) (QueueState.start fun _ => 0) teaInTime).map
      (fun t => (t.output, t.producers () matches .joined)) = some ([bytes "tea"], true) := by
    decide +kernel
  obtain ⟨t, hrun, hend⟩ := Option.map_eq_some_iff.mp hends
  obtain ⟨houtput, hmatches⟩ := Prod.mk.inj hend
  have hjoined : t.producers () = .joined := by
    cases hpc : t.producers () <;> simp [hpc] at hmatches ⊢
  exact ⟨t, hrun, hjoined, houtput,
    (everything_is_printed_when_the_worker_exits_with_an_empty_ring (fun _ => 0) teaInTime).1
      (by decide +kernel)⟩

/-- The last text is pushed, and then the worker reads `terminate_`. -/
theorem the_last_text_is_not_printed :
    ¬ ∀ (memory : Nat → UInt8) (as : List (QueueAct Unit)),
      Always (queueStep ()) AllPrinted (QueueState.start memory) as := by
  intro hall
  obtain ⟨t, htest, rfl⟩ := run_test () (sound_start fun _ => 0) (by decide) (i := ()) rfl
    ⟨bytes "tea", nul_not_mem_tea⟩
  have hwritten := run_snoc htest (step_write () (i := ()) rfl rfl)
  have hended := run_snoc hwritten (a := .terminate) rfl
  have hexited := run_snoc hended (a := .test) rfl
  have hjoined := run_snoc hexited (a := .join) rfl
  have hprinted := (hall _ _).of_run hjoined rfl
  cases hprinted

end anagram
