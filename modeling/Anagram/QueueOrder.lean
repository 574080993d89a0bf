-- What the output queue prints when many threads push. The texts of each producer
-- come out in the order of its calls, none of them twice and none made up. And
-- as long as the worker has not been told to end, it can go on by itself until all
-- that was pushed is printed.
import Anagram.QueueThreads

open interleaving

namespace anagram

variable {ι : Type}

/-! ## The worker and what it has printed -/

/-- The text that a producer has in `Push`. -/
def ProducerPc.text : ProducerPc → Option CString
  | .testing text => some text
  | .testing_end text _ => some text
  | .past_test text => some text
  | _ => none

/-- Whether the worker is in its locked section. -/
def WorkerPc.Locked : WorkerPc → Prop
  | .popping => True
  | .printing _ => True
  | .releasing => True
  | _ => False

/-- The texts of the first `n` pushes of all producers. -/
def QueueState.oldest (s : QueueState ι) (n : Nat) : List Text := (s.pushed.take n).map (·.bytes)

/-- The worker has printed what it has popped, but for the text that it is about to print. -/
structure Printing (s : QueueState ι) : Prop where
  sound : Sound s
  fits : ∀ text ∈ s.pushed, FitsSlot text
  held_fits : ∀ i, ∀ text ∈ (s.producers i).text, FitsSlot text
  locked : s.worker.Locked → s.queue_lock = some .worker
  free : ¬ s.worker.Locked → s.queue_lock = none
  printing : ∀ item, s.worker = .printing item →
    ∃ text, s.queue.printed item = some text ∧ s.output ++ [text] = s.oldest s.popped
  output_eq : (∀ item, s.worker ≠ .printing item) → s.output = s.oldest s.popped
  alive : s.worker ≠ .crashed
  told : s.worker = .exited → s.terminate_ = true

/-- A text that is pushed leaves room for its NUL. -/
def CallFits : QueueAct ι → Prop
  | .call _ text => FitsSlot text
  | _ => True

theorem printing_start (memory : Nat → UInt8) :
    Printing (QueueState.start memory : QueueState ι) where
  sound := sound_start memory
  fits := by simp [QueueState.start]
  held_fits := by simp [QueueState.start, ProducerPc.text]
  locked h := h.elim
  free _ := rfl
  printing item h := by cases h
  output_eq _ := rfl
  alive h := by cases h
  told h := by cases h

theorem oldest_succ {s : QueueState ι} {text : CString} {rest : List CString}
    (h : s.pending = text :: rest) :
    s.oldest (s.popped + 1) = s.oldest s.popped ++ [text.bytes] := by
  have hget : s.pushed[s.popped]? = some text := by
    rw [← List.head?_drop, ← QueueState.pending, h, List.head?_cons]
  simp [QueueState.oldest, List.take_add_one, hget]

section
variable {s : QueueState ι}

/-- The worker goes from one place to another, and prints nothing. -/
theorem Printing.goTo (h : Printing s) {pc : WorkerPc} {lock : Mutex (Party ι)}
    (hfrom : ∀ item, s.worker ≠ .printing item) (hto : ∀ item, pc ≠ .printing item)
    (halive : pc ≠ .crashed) (hlocked : pc.Locked → lock = some .worker)
    (hfree : ¬ pc.Locked → lock = none) (htold : pc = .exited → s.terminate_ = true) :
    Printing { s with worker := pc, queue_lock := lock } where
  sound := ⟨h.sound.popped_le, h.sound.items⟩
  fits := h.fits
  held_fits := h.held_fits
  locked := hlocked
  free := hfree
  printing item hpc := absurd hpc (hto item)
  output_eq _ := h.output_eq hfrom
  alive := halive
  told := htold

/-- The worker prints the text that it has popped. -/
theorem Printing.print (h : Printing s) {item : Nat} {text : Text}
    (hpc : s.worker = .printing item) (htext : s.queue.printed item = some text) :
    Printing { s with output := s.output ++ [text], worker := .popping } := by
  obtain ⟨text', hprinted, hout⟩ := h.printing item hpc
  obtain rfl := Option.some.inj (htext.symm.trans hprinted)
  exact ⟨⟨h.sound.popped_le, h.sound.items⟩, h.fits, h.held_fits,
    fun _ => h.locked (by rw [hpc]; trivial), fun hnot => absurd trivial hnot,
    fun item he => absurd he (by simp), fun _ => hout, by simp, by simp⟩

variable [DecidableEq ι]

/-- A producer goes on, and the ring stays as it is. -/
theorem Printing.setProducer (h : Printing s) (i : ι) {pc : ProducerPc}
    (hfit : ∀ text ∈ pc.text, FitsSlot text) : Printing (s.setProducer i pc) where
  sound := h.sound.setProducer i pc
  fits := h.fits
  held_fits j text hj := by
    by_cases hji : j = i
    · subst hji
      rw [setProducer_self] at hj
      exact hfit text hj
    · rw [setProducer_ne s hji] at hj
      exact h.held_fits j text hj
  locked := h.locked
  free := h.free
  printing := h.printing
  output_eq := h.output_eq
  alive := h.alive
  told := h.told

/-- A producer writes, while the worker is outside its locked section. -/
theorem Printing.write (h : Printing s) {i : ι} {text : CString}
    (hpc : s.producers i = .past_test text) (hlock : s.queue_lock = none)
    (hroom : s.queue.getItemTot ≠ fullTot) :
    Printing { s.setProducer i .idle with
      queue := s.queue.write (some text), queue_lock := none, pushed := s.pushed ++ [text] } := by
  have hout : ¬ s.worker.Locked := fun hlocked => by
    rw [h.locked hlocked] at hlock
    cases hlock
  have hnot : ∀ item, s.worker ≠ .printing item := fun item he => hout (by rw [he]; trivial)
  have hidle : Printing (s.setProducer i .idle) := h.setProducer i (by simp [ProducerPc.text])
  refine ⟨h.sound.write (h.sound.room hroom) text rfl rfl rfl, fun text' ht => ?_,
    hidle.held_fits, fun hlocked => absurd hlocked hout, fun _ => rfl,
    fun item he => absurd he (hnot item), fun _ => ?_, h.alive, h.told⟩
  · rcases List.mem_append.mp ht with ht | ht
    · exact h.fits text' ht
    · rw [List.mem_singleton.mp ht]
      apply h.held_fits i
      rw [hpc]
      rfl
  · change s.output = ((s.pushed ++ [text]).take s.popped).map _
    rw [List.take_append_of_le_length h.sound.popped_le]
    exact h.output_eq hnot

/-- The worker pops a text, and is about to print it. -/
theorem Printing.pop (h : Printing s) {owner : ι} {item : Nat} (hpc : s.worker = .popping)
    (hitem : s.queue.pop.1 = some item)
    (hstep : queueStep owner s .pop = some
      { s with queue := s.queue.pop.2, worker := .printing item, popped := s.popped + 1 }) :
    Printing
      { s with queue := s.queue.pop.2, worker := .printing item, popped := s.popped + 1 } := by
  obtain ⟨text, hpending, rfl, hslot, -⟩ := h.sound.pop hitem
  have hfits : FitsSlot text := by
    apply h.fits
    apply List.mem_of_mem_drop (i := s.popped)
    rw [← QueueState.pending, hpending]
    exact List.mem_cons_self
  refine ⟨sound_step (a := .pop) h.sound trivial hstep, h.fits, h.held_fits,
    fun _ => h.locked (by rw [hpc]; trivial), fun hnot => absurd trivial hnot, fun item he => ?_,
    fun hnot => absurd rfl (hnot _), by simp, by simp⟩
  cases he
  refine ⟨text.bytes, ?_, ?_⟩
  · have hprinted := hslot.printed h.sound.items.first_lt hfits
    rw [OutputQueue.printed] at hprinted ⊢
    rw [pop_queue]
    exact hprinted
  · have hout := h.output_eq fun item he => by simp [hpc] at he
    exact (congrArg (· ++ [text.bytes]) hout).trans (oldest_succ hpending).symm

end

section Steps

variable [DecidableEq ι] {owner : ι} {s t : QueueState ι} {a : QueueAct ι}

theorem printing_step (h : Printing s) (hroom : FindsRoom s a) (hfit : CallFits a)
    (hstep : queueStep owner s a = some t) : Printing t := by
  have hsame : ∀ {i : ι} {pc : ProducerPc}, pc.text = (s.producers i).text →
      Printing (s.setProducer i pc) := fun {i} {pc} heq =>
    h.setProducer i fun text ht => h.held_fits i text (heq ▸ ht)
  have hplace : ∀ {pc : WorkerPc}, s.worker = pc → (∀ item, pc ≠ .printing item) →
      ∀ item, s.worker ≠ .printing item := fun heq hne => heq ▸ hne
  cases queueMove_of_step hstep with
  | call hpc => exact h.setProducer _ fun text ht => by cases ht; exact hfit
  | readStart hpc => exact hsame (by rw [hpc]; rfl)
  | again hpc => exact hsame (by rw [hpc]; rfl)
  | pass hpc htot => exact hsame (by rw [hpc]; rfl)
  | write hpc hlock => exact h.write hpc hlock hroom
  | exit hpc hterm =>
    have hfree := h.free (by rw [hpc]; exact id)
    exact h.goTo (hplace hpc (by simp)) (by simp) (by simp) (fun hl => hl.elim)
      (fun _ => hfree) fun _ => hterm
  | stay hpc hterm =>
    have hfree := h.free (by rw [hpc]; exact id)
    exact h.goTo (hplace hpc (by simp)) (by simp) (by simp) (fun hl => hl.elim)
      (fun _ => hfree) (by simp)
  | sleep hpc =>
    have hfree := h.free (by rw [hpc]; exact id)
    exact h.goTo (hplace hpc (by simp)) (by simp) (by simp) (fun hl => hl.elim)
      (fun _ => hfree) (by simp)
  | acquire hpc hlock =>
    exact h.goTo (hplace hpc (by simp)) (by simp) (by simp) (fun _ => rfl)
      (fun hn => absurd trivial hn) (by simp)
  | pop hpc hitem => exact h.pop hpc hitem hstep
  | drained hpc hnone =>
    have hlock := h.locked (by rw [hpc]; trivial)
    rw [pop_eq_self hnone]
    exact h.goTo (hplace hpc (by simp)) (by simp) (by simp) (fun _ => hlock)
      (fun hn => absurd trivial hn) (by simp)
  | print hpc htext => exact h.print hpc htext
  | crash hpc htext =>
    obtain ⟨text, hprinted, -⟩ := h.printing _ hpc
    rw [htext] at hprinted
    cases hprinted
  | release hpc hlock =>
    exact h.goTo (hplace hpc (by simp)) (by simp) (by simp) (fun hl => hl.elim)
      (fun _ => rfl) (by simp)
  | terminate hpc =>
    have hend : Printing (s.setProducer owner .joining) :=
      h.setProducer owner (by simp [ProducerPc.text])
    exact ⟨⟨h.sound.popped_le, h.sound.items⟩, h.fits, hend.held_fits, h.locked, h.free, h.printing,
      h.output_eq, h.alive, fun _ => rfl⟩
  | join hpc hexit => exact h.setProducer owner (by simp [ProducerPc.text])

/-! ## Which producer wrote what -/

/-- The text that a step writes to the ring, with its producer. -/
def written (s : QueueState ι) : QueueAct ι → List (ι × CString)
  | .write i => (s.producers i).text.toList.map fun text => (i, text)
  | _ => []

/-- All writes of a run, in their order. -/
def writes (owner : ι) : QueueState ι → List (QueueAct ι) → List (ι × CString)
  | _, [] => []
  | s, a :: as => written s a ++ ((queueStep owner s a).map fun t => writes owner t as).getD []

/-- The texts of a producer among them. -/
def writesOf (i : ι) (ws : List (ι × CString)) : List CString :=
  (ws.filter fun w => w.1 = i).map Prod.snd

/-- The text that a step hands to `Push`, if the producer makes a call in it. -/
def callOf (i : ι) : QueueAct ι → Option CString
  | .call j text => if j = i then some text else none
  | _ => none

/-- The texts that a producer hands to `Push`, in the order of its calls. -/
def callsOf (i : ι) (as : List (QueueAct ι)) : List CString := as.filterMap (callOf i)

theorem writesOf_append (i : ι) (ws vs : List (ι × CString)) :
    writesOf i (ws ++ vs) = writesOf i ws ++ writesOf i vs := by
  simp [writesOf]

/-- A producer writes the texts of its calls one after another, and has the last one in `Push`. -/
theorem writes_step (h : queueStep owner s a = some t) :
    t.pushed = s.pushed ++ (written s a).map Prod.snd ∧
    ∀ i, writesOf i (written s a) ++ (t.producers i).text.toList =
      (s.producers i).text.toList ++ (callOf i a).toList := by
  have hkeep : ∀ {j : ι} {pc : ProducerPc}, pc.text = (s.producers j).text → ∀ i,
      ((s.setProducer j pc).producers i).text = (s.producers i).text := by
    intro j pc heq i
    by_cases hij : i = j
    · subst hij
      rw [setProducer_self, heq]
    · rw [setProducer_ne s hij]
  cases queueMove_of_step h with
  | @call j text hpc =>
    refine ⟨(List.append_nil _).symm, fun i => ?_⟩
    by_cases hij : i = j
    · subst hij
      simp [written, writesOf, callOf, hpc, ProducerPc.text]
    · simp [written, writesOf, callOf, setProducer_ne s hij, Ne.symm hij]
  | readStart hpc =>
    refine ⟨(List.append_nil _).symm, fun i => ?_⟩
    rw [hkeep (by rw [hpc]; rfl) i]
    exact (List.append_nil _).symm
  | again hpc =>
    refine ⟨(List.append_nil _).symm, fun i => ?_⟩
    rw [hkeep (by rw [hpc]; rfl) i]
    exact (List.append_nil _).symm
  | pass hpc htot =>
    refine ⟨(List.append_nil _).symm, fun i => ?_⟩
    rw [hkeep (by rw [hpc]; rfl) i]
    exact (List.append_nil _).symm
  | @write j text hpc hlock =>
    have hwritten : written s (.write j) = [(j, text)] := by
      simp [written, hpc, ProducerPc.text]
    refine ⟨by rw [hwritten]; rfl, fun i => ?_⟩
    change writesOf i (written s (.write j)) ++
      ((s.setProducer j .idle).producers i).text.toList = _
    rw [hwritten]
    by_cases hij : i = j
    · subst hij
      simp [writesOf, callOf, hpc, ProducerPc.text]
    · simp [writesOf, callOf, setProducer_ne s hij, Ne.symm hij]
  | terminate hpc =>
    refine ⟨(List.append_nil _).symm, fun i => ?_⟩
    change [] ++ ((s.setProducer owner .joining).producers i).text.toList = _
    rw [hkeep (by rw [hpc]; rfl) i]
    exact (List.append_nil _).symm
  | join hpc hexit =>
    refine ⟨(List.append_nil _).symm, fun i => ?_⟩
    rw [hkeep (by rw [hpc]; rfl) i]
    exact (List.append_nil _).symm
  | _ => exact ⟨(List.append_nil _).symm, fun i => (List.append_nil _).symm⟩

theorem writes_run {as : List (QueueAct ι)} (hrun : run (queueStep owner) s as = some t) :
    t.pushed = s.pushed ++ (writes owner s as).map Prod.snd ∧
    ∀ i, writesOf i (writes owner s as) ++ (t.producers i).text.toList =
      (s.producers i).text.toList ++ callsOf i as := by
  induction as generalizing s with
  | nil =>
    cases hrun
    exact ⟨(List.append_nil _).symm, fun i => (List.append_nil _).symm⟩
  | cons a as ih =>
    obtain ⟨u, hu, hrest⟩ := Option.bind_eq_some_iff.mp hrun
    obtain ⟨hpushed, hcalls⟩ := writes_step hu
    obtain ⟨hpushed', hcalls'⟩ := ih hrest
    have hwrites : writes owner s (a :: as) = written s a ++ writes owner u as := by
      rw [writes, hu]
      rfl
    have hcallsOf : ∀ i, callsOf i (a :: as) = (callOf i a).toList ++ callsOf i as := by
      intro i
      rw [callsOf, List.filterMap_cons]
      cases callOf i a <;> rfl
    refine ⟨?_, fun i => ?_⟩
    · rw [hpushed', hpushed, hwrites, List.map_append, List.append_assoc]
    · rw [hwrites, writesOf_append, List.append_assoc, hcalls' i, ← List.append_assoc, hcalls i,
        List.append_assoc, hcallsOf]

omit [DecidableEq ι] in
/-- What is printed is the beginning of what is pushed. -/
theorem Printing.output_begins (h : Printing s) : s.output <+: s.pushed.map (·.bytes) := by
  have holdest : s.oldest s.popped <+: s.pushed.map (·.bytes) := (List.take_prefix _ _).map _
  by_cases hprinting : ∃ item, s.worker = .printing item
  · obtain ⟨item, hitem⟩ := hprinting
    obtain ⟨text, -, hout⟩ := h.printing item hitem
    exact (hout ▸ List.prefix_append s.output [text]).trans holdest
  · rw [h.output_eq fun item he => hprinting ⟨item, he⟩]
    exact holdest

theorem printing_run {memory : Nat → UInt8} {as : List (QueueAct ι)}
    (halong : Along (queueStep owner) (fun s a => FindsRoom s a ∧ CallFits a)
      (QueueState.start memory) as)
    (hrun : run (queueStep owner) (QueueState.start memory) as = some t) : Printing t :=
  (always_of_along (fun _ _ _ h hp hstep => printing_step h hp.1 hp.2 hstep) (fun _ h => h)
    (printing_start memory) halong).of_run hrun

/-- Whatever the order of the steps of any number of producers, the output is an interleaving of
beginnings of what each of them has handed to `Push`, when the texts fit and each write finds room:
the texts of a producer are printed in the order of its calls, each once, and nothing else is. -/
theorem the_output_is_an_interleaving_of_the_calls (owner : ι) (memory : Nat → UInt8)
    (as : List (QueueAct ι))
    (halong : Along (queueStep owner) (fun s a => FindsRoom s a ∧ CallFits a)
      (QueueState.start memory) as) (t : QueueState ι)
    (hrun : run (queueStep owner) (QueueState.start memory) as = some t) :
    ∃ printed : List (ι × CString), t.output = printed.map (fun w => w.2.bytes) ∧
      ∀ i, writesOf i printed <+: callsOf i as := by
  obtain ⟨hpushed, hcalls⟩ := writes_run hrun
  have hprefix := (printing_run halong hrun).output_begins
  have hstart : (QueueState.start memory : QueueState ι).pushed = [] := rfl
  rw [hstart, List.nil_append] at hpushed
  rw [hpushed, List.map_map] at hprefix
  refine ⟨(writes owner (QueueState.start memory) as).take t.output.length, ?_, fun i => ?_⟩
  · rw [List.map_take]
    exact List.prefix_iff_eq_take.mp hprefix
  · have hall : writesOf i (writes owner (QueueState.start memory) as) <+: callsOf i as :=
      ⟨(t.producers i).text.toList, hcalls i⟩
    exact ((List.take_prefix _ _).filter _ |>.map _).trans hall

instance (s : QueueState ι) : (a : QueueAct ι) → Decidable (FindsRoom s a)
  | .write _ => inferInstanceAs (Decidable (_ ≠ _))
  | .call _ _ | .readStart _ | .readEnd _ | .test | .sleep | .acquire | .pop | .print | .release
  | .terminate | .join => isTrue trivial

instance : (a : QueueAct ι) → Decidable (CallFits a)
  | .call _ text => inferInstanceAs (Decidable (text.bytes.length < kOutputQueueItemSize))
  | .write _ | .readStart _ | .readEnd _ | .test | .sleep | .acquire | .pop | .print | .release
  | .terminate | .join => isTrue trivial

/-- Two producers that call `Push` at the same time. The second one writes first, and its text is
printed. -/
def twoCalls : List (QueueAct Nat) :=
  [.call 0 ⟨bytes "tea", by decide⟩, .call 1 ⟨bytes "eat", by decide⟩, .readStart 0, .readStart 1,
    .readEnd 0, .readEnd 1, .write 1, .write 0, .test, .sleep, .acquire, .pop, .print]

theorem two_calls_are_interleaved :
    ∃ t, run (queueStep 0) (QueueState.start fun _ => 0) twoCalls = some t ∧
      ∃ printed : List (Nat × CString), t.output = printed.map (fun w => w.2.bytes) ∧
        ∀ i, writesOf i printed <+: callsOf i twoCalls := by
  have hsome : (run (queueStep 0) (QueueState.start fun _ => 0) twoCalls).isSome := by
    decide +kernel
  obtain ⟨t, hrun⟩ := Option.isSome_iff_exists.mp hsome
  exact ⟨t, hrun, the_output_is_an_interleaving_of_the_calls 0 (fun _ => 0) twoCalls
    (by decide +kernel) t hrun⟩

/-! ## The worker can go on -/

/-- A step of the worker. -/
def IsWorker : QueueAct ι → Prop
  | .test => True
  | .sleep => True
  | .acquire => True
  | .pop => True
  | .print => True
  | .release => True
  | _ => False

/-- Nothing is left to print, and the worker is about to test whether it is to end. -/
def AtRest (s : QueueState ι) : Prop := s.worker = .testing ∧ s.pending = []

/-- The steps of the worker up to its next pop. -/
def WorkerPc.toPop : WorkerPc → Nat
  | .popping => 1
  | .printing _ => 2
  | .acquiring => 2
  | .asleep => 3
  | .testing => 4
  | .releasing => 5
  | .exited => 0
  | .crashed => 0

/-- The steps of the worker up to its next test, when there is nothing to pop. -/
def WorkerPc.toTest : WorkerPc → Nat
  | .releasing => 1
  | .popping => 2
  | .printing _ => 3
  | .acquiring => 3
  | .asleep => 4
  | _ => 0

/-- What the worker has before it until it is at rest, at most. -/
def toRest (s : QueueState ι) : Nat :=
  if s.pending = [] then s.worker.toTest else 3 * s.pending.length + s.worker.toPop + 2

/-- The worker has not been told to end, and the producers are where they were. -/
structure Resting (s₀ s : QueueState ι) : Prop where
  printing : Printing s
  on : s.terminate_ = false
  pushed_eq : s.pushed = s₀.pushed
  producers_eq : s.producers = s₀.producers

/-- A step of the worker brings it closer to its rest. -/
theorem resting_step {s₀ : QueueState ι} (h : Resting s₀ s) (hworker : IsWorker a)
    (hbusy : ¬ AtRest s) (hstep : queueStep owner s a = some t) :
    Resting s₀ t ∧ toRest t < toRest s := by
  have hroom : FindsRoom s a := by
    cases a <;> trivial
  have hfit : CallFits a := by
    cases a <;> trivial
  have hprinting := printing_step h.printing hroom hfit hstep
  cases queueMove_of_step hstep with
  | call | readStart | again | pass | write | terminate | join => exact hworker.elim
  | exit hpc hterm =>
    rw [h.on] at hterm
    cases hterm
  | crash hpc htext => exact absurd rfl hprinting.alive
  | stay hpc =>
    have hpending : s.pending ≠ [] := fun hnil => hbusy ⟨hpc, hnil⟩
    refine ⟨⟨hprinting, h.on, h.pushed_eq, h.producers_eq⟩, ?_⟩
    change (if s.pending = [] then _ else 3 * s.pending.length + _ + 2) < _
    rw [toRest, if_neg hpending, if_neg hpending, hpc]
    simp [WorkerPc.toPop]
  | @pop item hpc hitem =>
    obtain ⟨text, hpending, -⟩ := h.printing.sound.pop hitem
    refine ⟨⟨hprinting, h.on, h.pushed_eq, h.producers_eq⟩, ?_⟩
    rw [toRest, toRest, hpending, if_neg (List.cons_ne_nil _ _), hpc]
    change (if s.pushed.drop (s.popped + 1) = [] then _ else
      3 * (s.pushed.drop (s.popped + 1)).length + _ + 2) < _
    split_ifs <;> simp only [WorkerPc.toTest, WorkerPc.toPop, List.length_cons] <;> omega
  | drained hpc hnone =>
    have hpending : s.pending = [] := by
      cases hp : s.pending with
      | nil => rfl
      | cons text texts =>
        have hitems := h.printing.sound.items
        rw [hp] at hitems
        rw [hitems.pop.1] at hnone
        cases hnone
    refine ⟨⟨hprinting, h.on, h.pushed_eq, h.producers_eq⟩, ?_⟩
    change (if s.pending = [] then _ else _) < _
    rw [toRest, if_pos hpending, if_pos hpending, hpc]
    exact Nat.lt_succ_self _
  | sleep hpc | acquire hpc | print hpc | release hpc =>
    refine ⟨⟨hprinting, h.on, h.pushed_eq, h.producers_eq⟩, ?_⟩
    change (if s.pending = [] then _ else 3 * s.pending.length + _ + 2) < _
    rw [toRest, hpc]
    split_ifs <;> simp [WorkerPc.toTest, WorkerPc.toPop]

/-- Wherever the worker is, it can take its next step. -/
theorem worker_moves (h : Printing s) (hon : s.terminate_ = false) (owner : ι) :
    ∃ a t, IsWorker a ∧ queueStep owner s a = some t := by
  cases hpc : s.worker with
  | testing => exact ⟨.test, _, trivial, by simp [queueStep, workerStep, hpc, hon]; rfl⟩
  | asleep => exact ⟨.sleep, _, trivial, by simp [queueStep, workerStep, hpc]; rfl⟩
  | acquiring =>
    have hlock := h.free (by rw [hpc]; exact id)
    exact ⟨.acquire, _, trivial, by simp [queueStep, workerStep, hpc, hlock, mutexStep]; rfl⟩
  | popping =>
    cases hitem : s.queue.pop.1 with
    | none => exact ⟨.pop, _, trivial, by simp [queueStep, workerStep, hpc, hitem]; rfl⟩
    | some item => exact ⟨.pop, _, trivial, by simp [queueStep, workerStep, hpc, hitem]; rfl⟩
  | printing item =>
    obtain ⟨text, htext, -⟩ := h.printing item hpc
    exact ⟨.print, _, trivial, by simp [queueStep, workerStep, hpc, htext]; rfl⟩
  | releasing =>
    have hlock := h.locked (by rw [hpc]; trivial)
    exact ⟨.release, _, trivial, by simp [queueStep, workerStep, hpc, hlock, mutexStep]; rfl⟩
  | exited =>
    have htold := h.told hpc
    rw [hon] at htold
    cases htold
  | crashed => exact absurd hpc h.alive

/-- The worker can go on by itself until it is at rest. -/
theorem can_rest (h : Printing s) (hon : s.terminate_ = false) (owner : ι) :
    ∃ bs t, run (queueStep owner) s bs = some t ∧ (∀ b ∈ bs, IsWorker b) ∧ Resting s t ∧
      AtRest t := by
  have hcan : ∃ bs t, run (queueStep owner) s bs = some t ∧
      Along (queueStep owner) (fun s a => IsWorker a ∧ ¬ AtRest s) s bs ∧
      (Resting s t ∧ AtRest t) := by
    apply exists_run_to
      (fun u a t hu hp hstep => resting_step hu hp.1 hp.2 hstep) _ ⟨h, hon, rfl, rfl⟩
    intro u hu hgoal
    obtain ⟨a, t, ha, ht⟩ := worker_moves hu.printing hu.on owner
    exact ⟨a, t, ⟨ha, fun hrest => hgoal ⟨hu, hrest⟩⟩, ht⟩
  obtain ⟨bs, t, hrun, halong, hresting, hrest⟩ := hcan
  exact ⟨bs, t, hrun, halong.forall_mem hrun fun _ _ hp => hp.1, hresting, hrest⟩

omit [DecidableEq ι] in
/-- At rest, the worker has printed all that is pushed. -/
theorem Printing.output_at_rest (h : Printing s) (hrest : AtRest s) :
    s.output = s.pushed.map (·.bytes) := by
  rw [h.output_eq fun item he => by simp [hrest.1] at he, QueueState.oldest,
    List.take_of_length_le (List.drop_eq_nil_iff.mp hrest.2)]

/-- No text stays behind. In every state that such a run comes to before `TerminateThread`, the
worker can go on by its own steps until all that was pushed is printed. -/
theorem the_worker_can_print_all_that_is_pushed (owner : ι) (memory : Nat → UInt8)
    (as : List (QueueAct ι))
    (halong : Along (queueStep owner) (fun s a => FindsRoom s a ∧ CallFits a)
      (QueueState.start memory) as) (t : QueueState ι)
    (hrun : run (queueStep owner) (QueueState.start memory) as = some t)
    (hon : t.terminate_ = false) :
    ∃ bs u, run (queueStep owner) t bs = some u ∧ (∀ b ∈ bs, IsWorker b) ∧
      u.output = t.pushed.map (·.bytes) := by
  obtain ⟨bs, u, hbs, hworker, hresting, hrest⟩ := can_rest (printing_run halong hrun) hon owner
  refine ⟨bs, u, hbs, hworker, ?_⟩
  rw [hresting.printing.output_at_rest hrest, hresting.pushed_eq]

theorem the_texts_of_two_calls_can_be_printed :
    ∃ t, run (queueStep 0) (QueueState.start fun _ => 0) twoCalls = some t ∧
      ∃ bs u, run (queueStep 0) t bs = some u ∧ (∀ b ∈ bs, IsWorker b) ∧
        u.output = t.pushed.map (·.bytes) := by
  have hsome : (run (queueStep 0) (QueueState.start fun _ => 0) twoCalls).isSome := by
    decide +kernel
  obtain ⟨t, hrun⟩ := Option.isSome_iff_exists.mp hsome
  have hon : (run (queueStep 0) (QueueState.start fun _ => 0) twoCalls).all
      (fun t => !t.terminate_) := by decide +kernel
  rw [hrun] at hon
  exact ⟨t, hrun, the_worker_can_print_all_that_is_pushed 0 (fun _ => 0) twoCalls
    (by decide +kernel) t hrun (by simpa using hon)⟩

end Steps

end anagram
