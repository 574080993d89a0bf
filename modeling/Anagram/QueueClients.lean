-- The workers of a job as producers of the output queue (main.cc, output_queue.cc).
-- Worker `i` is the producer `some i`, and RunJob, whose queue it is, is `none`. A
-- text that is handed to `Push` is with its worker until it is in the ring.
import Anagram.SearchJob
import Anagram.QueueOrder
import Anagram.PushedTexts

open interleaving

namespace anagram

/-! ## Calls of `Push` -/

/-- What `Push` sees of a text at its `c_str()`. -/
def cStringOf (text : Text) : CString where
  bytes := cString text
  no_nul h := by simpa using List.mem_takeWhile_imp h

/-- Worker `i` calls `Push`, if there is a text for it. -/
def handOver (q : QueueState (Option Nat)) (i : Nat) :
    Option Text → Option (QueueState (Option Nat))
  | some text => queueStep none q (.call (some i) (cStringOf text))
  | none => some q

def ProducerPc.isIdle : ProducerPc → Bool
  | .idle => true
  | _ => false

def MainAt.isReturned : MainAt → Bool
  | .returned _ => true
  | _ => false

/-- The calls of `Push` are those of the workers, and its steps come before `RunJob` is over.
`~OutputQueue` runs when `RunJob` returns. After a join of a handle that was never filled, no step
has a meaning. -/
def mayStep (main : MainAt) : QueueAct (Option Nat) → Bool
  | .call _ _ => false
  | .readStart _ | .readEnd _ | .write _ => !main.isOver
  | .terminate => main.isReturned
  | _ => decide (main ≠ .undefined)

/-- A worker writes what it finds while it gathers or combines. -/
def WorkerAt.Writes : WorkerAt → Prop
  | .gathering => True
  | .combining _ => True
  | _ => False

theorem WorkerAt.Writes.created {w : WorkerAt} (h : w.Writes) : w ≠ .uncreated := by
  rintro rfl
  exact h

theorem isIdle_iff {pc : ProducerPc} : pc.isIdle = true ↔ pc = .idle := by
  cases pc <;> simp [ProducerPc.isIdle]

theorem handOver_some {q r : QueueState (Option Nat)} {i : Nat} {text : Text}
    (h : handOver q i (some text) = some r) : q.producers (some i) = .idle ∧
      r = q.setProducer (some i) (.testing (cStringOf text)) := by
  have hcall : queueStep none q (.call (some i) (cStringOf text)) = some r := h
  cases queueMove_of_step hcall with
  | call hidle => exact ⟨hidle, rfl⟩

/-! ## What is in `Push` -/

/-- The text that a worker has in `Push`. -/
def heldBy (q : QueueState (Option Nat)) (i : Nat) : Multiset Text :=
  ((q.producers (some i)).text.toList.map (·.bytes) : List Text)

/-- The texts that the first `n` workers have in `Push`. -/
def heldTexts (q : QueueState (Option Nat)) (n : Nat) : Multiset Text :=
  ∑ i ∈ Finset.range n, heldBy q i

/-- One worker holds one text more. -/
theorem heldTexts_add {q r : QueueState (Option Nat)} {i n : Nat} {x : Text} (hi : i < n)
    (hself : heldBy r i = heldBy q i + {x}) (hne : ∀ j, j ≠ i → heldBy r j = heldBy q j) :
    heldTexts r n = heldTexts q n + {x} := by
  have hall : ∀ j, heldBy r j = heldBy q j + if i = j then {x} else 0 := by
    intro j
    by_cases hj : i = j
    · subst hj
      rw [if_pos rfl, hself]
    · rw [if_neg hj, hne j (Ne.symm hj), add_zero]
  unfold heldTexts
  simp only [hall, Finset.sum_add_distrib, Finset.sum_ite_eq, Finset.mem_range, hi, if_true]

theorem heldBy_setProducer_ne (q : QueueState (Option Nat)) {i j : Nat} (h : j ≠ i)
    (pc : ProducerPc) : heldBy (q.setProducer (some i) pc) j = heldBy q j := by
  rw [heldBy, setProducer_ne q (by simpa using h)]
  rfl

/-- The texts handed over are pushed, or still in `Push`. -/
def HandedOver (n : Nat) (log : List Text) (q : QueueState (Option Nat)) : Prop :=
  (log : Multiset Text) = (q.pushed.map (·.bytes) : List Text) + heldTexts q n

theorem HandedOver.congr {n : Nat} {log : List Text} {q r : QueueState (Option Nat)}
    (h : HandedOver n log q) (hpushed : r.pushed = q.pushed)
    (htext : ∀ i, (r.producers (some i)).text = (q.producers (some i)).text) :
    HandedOver n log r := by
  unfold HandedOver heldTexts heldBy at h ⊢
  rw [h, hpushed]
  simp only [htext]

/-- A step of the queue moves a text from its producer to the ring, or none. -/
theorem handedOver_step {n : Nat} {log : List Text} {q r : QueueState (Option Nat)}
    {a : QueueAct (Option Nat)} (h : HandedOver n log q) (hcall : ∀ i text, a ≠ .call i text)
    (hwrite : ∀ i, a = .write i → ∃ k < n, i = some k) (hstep : queueStep none q a = some r) :
    HandedOver n log r := by
  have hkeep : ∀ {i : Option Nat} {pc : ProducerPc}, pc.text = (q.producers i).text →
      ∀ j, ((q.setProducer i pc).producers (some j)).text = (q.producers (some j)).text := by
    intro i pc htext j
    by_cases hj : some j = i
    · subst hj
      rw [setProducer_self, htext]
    · rw [setProducer_ne q hj]
  cases queueMove_of_step hstep with
  | call => exact absurd rfl (hcall _ _)
  | readStart hpc => exact h.congr rfl (hkeep (by rw [hpc]; rfl))
  | again hpc => exact h.congr rfl (hkeep (by rw [hpc]; rfl))
  | pass hpc => exact h.congr rfl (hkeep (by rw [hpc]; rfl))
  | @write i text hpc hlock =>
    obtain ⟨k, hk, rfl⟩ := hwrite i rfl
    have hheld : heldTexts q n = heldTexts (q.setProducer (some k) .idle) n + {text.bytes} := by
      apply heldTexts_add hk
      · simp [heldBy, hpc, ProducerPc.text]
      · exact fun j hj => (heldBy_setProducer_ne q hj _).symm
    unfold HandedOver at h ⊢
    rw [h, hheld, List.map_append, ← Multiset.coe_add, add_assoc, add_comm (heldTexts _ n)]
    rfl
  | terminate hpc => exact h.congr rfl (hkeep (by rw [hpc]))
  | join hpc => exact h.congr rfl (hkeep (by rw [hpc]; rfl))
  | _ => exact h.congr rfl fun i => rfl

/-! ## Who is where -/

/-- `RunJob` is not in `Push`. It tells the worker of the queue to end, and then waits for it. -/
def OwnerOk (q : QueueState (Option Nat)) : Prop :=
  match q.producers none with
  | .idle => q.terminate_ = false
  | .joining => q.terminate_ = true
  | .joined => q.terminate_ = true ∧ q.worker = .exited
  | _ => False

/-- Only a worker that writes is in `Push`, with its text. -/
def BusyOk (n : Nat) (c : JobState) (q : QueueState (Option Nat)) : Prop :=
  ∀ i, q.producers (some i) ≠ .idle →
    i < n ∧ (q.producers (some i)).text.isSome ∧ (c.workers i).Writes

theorem OwnerOk.of_worker {q r : QueueState (Option Nat)} (h : OwnerOk q)
    (hworker : q.worker ≠ .exited) (hproducers : r.producers = q.producers)
    (hterminate : r.terminate_ = q.terminate_) : OwnerOk r := by
  unfold OwnerOk at h ⊢
  rw [hproducers, hterminate]
  split at h
  · exact h
  · exact h
  · exact absurd h.2 hworker
  · exact h

theorem OwnerOk.setProducer {q : QueueState (Option Nat)} (h : OwnerOk q) (i : Nat)
    (pc : ProducerPc) : OwnerOk (q.setProducer (some i) pc) := by
  unfold OwnerOk at h ⊢
  rw [setProducer_ne q (by simp)]
  exact h

/-- A producer in `Push` is a worker. -/
theorem OwnerOk.exists_worker {q : QueueState (Option Nat)} (h : OwnerOk q) {i : Option Nat}
    (hi : (q.producers i).text.isSome) : ∃ k, i = some k := by
  cases i with
  | some k => exact ⟨k, rfl⟩
  | none =>
    unfold OwnerOk at h
    split at h
    case h_4 => exact h.elim
    all_goals
      rename_i hpc
      rw [hpc] at hi
      cases hi

theorem ownerOk_step {q r : QueueState (Option Nat)} {a : QueueAct (Option Nat)} (h : OwnerOk q)
    (hcall : ∀ i text, a ≠ .call i text) (hstep : queueStep none q a = some r) : OwnerOk r := by
  have hpush : ∀ {i : Option Nat} (pc : ProducerPc), (q.producers i).text.isSome →
      OwnerOk (q.setProducer i pc) := by
    intro i pc hi
    obtain ⟨k, rfl⟩ := h.exists_worker hi
    exact h.setProducer k pc
  cases queueMove_of_step hstep with
  | call hpc => exact absurd rfl (hcall _ _)
  | readStart hpc => exact hpush _ (by rw [hpc]; rfl)
  | again hpc => exact hpush _ (by rw [hpc]; rfl)
  | pass hpc htot => exact hpush _ (by rw [hpc]; rfl)
  | write hpc hlock => exact hpush .idle (by rw [hpc]; rfl)
  | terminate hpc => simp [OwnerOk]
  | join hpc hexit =>
    rw [OwnerOk, hpc] at h
    rw [OwnerOk, setProducer_self]
    exact ⟨h, hexit⟩
  | exit hpc | stay hpc | sleep hpc | acquire hpc | pop hpc | drained hpc | print hpc | crash hpc
  | release hpc => exact h.of_worker (by simp [hpc]) rfl rfl

/-- A step of the queue takes no worker into `Push`. -/
theorem busyOk_queue {n : Nat} {c : JobState} {q r : QueueState (Option Nat)}
    {a : QueueAct (Option Nat)} (h : BusyOk n c q) (hcall : ∀ i text, a ≠ .call i text)
    (hstep : queueStep none q a = some r) : BusyOk n c r := by
  have hset : ∀ {i : Option Nat} (pc : ProducerPc), q.producers i ≠ .idle →
      (pc ≠ .idle → pc.text.isSome) → BusyOk n c (q.setProducer i pc) := by
    intro i pc hi hpc k hk
    by_cases hik : some k = i
    · subst hik
      obtain ⟨hlt, -, hwrites⟩ := h k hi
      rw [setProducer_self] at hk ⊢
      exact ⟨hlt, hpc hk, hwrites⟩
    · rw [setProducer_ne q hik] at hk ⊢
      exact h k hk
  have howner : ∀ pc, BusyOk n c (q.setProducer none pc) := by
    intro pc k hk
    rw [setProducer_ne q (by simp)] at hk ⊢
    exact h k hk
  cases queueMove_of_step hstep with
  | call => exact absurd rfl (hcall _ _)
  | readStart hpc => exact hset _ (by simp [hpc]) fun _ => rfl
  | again hpc => exact hset _ (by simp [hpc]) fun _ => rfl
  | pass hpc => exact hset _ (by simp [hpc]) fun _ => rfl
  | write hpc => exact hset .idle (by simp [hpc]) fun hne => absurd rfl hne
  | terminate => exact howner .joining
  | join => exact howner .joined
  | _ => exact h

/-- A worker that writes stays where it is in a step of the control, if the step is not its own. -/
theorem writes_move {job : SearchJob} {c c' : JobState} {a : JobAct} (hc : ControlOk job c)
    (hstep : jobStep job.toJob c a = some c') {k : Nat} (hwrites : (c.workers k).Writes)
    (hown : a ≠ .worker k) : (c'.workers k).Writes := by
  cases a with
  | worker i =>
    have hki : k ≠ i := by
      rintro rfl
      exact hown rfl
    rw [(workerMove_of_step hstep).workers_ne hki]
    exact hwrites
  | runJob =>
    cases runJobMove_of_step hstep with
    | @create i hpc hlt hok =>
      have hun : c.workers i = .uncreated := hc.creation.uncreated hpc
      have hki : k ≠ i := by
        rintro rfl
        rw [hun] at hwrites
        exact hwrites
      change ((c.setWorker i .acquiring).workers k).Writes
      rwa [setWorker_ne _ hki]
    | _ => exact hwrites

theorem busyOk_move {job : SearchJob} {n : Nat} {c c' : JobState} {q : QueueState (Option Nat)}
    {a : JobAct} (hc : ControlOk job c) (h : BusyOk n c q)
    (hown : ∀ i, a = .worker i → q.producers (some i) = .idle)
    (hstep : jobStep job.toJob c a = some c') : BusyOk n c' q := by
  intro k hk
  obtain ⟨hlt, htext, hwrites⟩ := h k hk
  exact ⟨hlt, htext, writes_move hc hstep hwrites fun ha => hk (hown k ha)⟩

/-! ## The queue and its producers -/

/-- The texts that were handed over are on their way, in the hands of workers that wait. -/
structure ClientsOk (n : Nat) (texts : List Text) (c : JobState) (q : QueueState (Option Nat)) :
    Prop where
  printing : Printing q
  handed : HandedOver n texts q
  owner : OwnerOk q
  busy : BusyOk n c q

theorem clientsOk_start (n : Nat) (memory : Nat → UInt8) :
    ClientsOk n [] .start (.start memory) where
  printing := printing_start memory
  handed := by
    simp [HandedOver, heldTexts, heldBy, QueueState.start, ProducerPc.text]
  owner := rfl
  busy i hi := absurd rfl hi

section
variable {n : Nat} {texts : List Text} {c : JobState} {q r : QueueState (Option Nat)}

/-- A text that is about to be written is not yet in the ring. -/
theorem ClientsOk.pushed_lt (h : ClientsOk n texts c q) {i : Nat} {text : CString}
    (hi : q.producers (some i) = .past_test text) : q.pushed.length < texts.length := by
  obtain ⟨hlt, -⟩ := h.busy i (by simp [hi])
  have hcard := congrArg Multiset.card h.handed
  rw [Multiset.card_add, Multiset.coe_card, Multiset.coe_card, List.length_map] at hcard
  have hheld : heldBy q i ≤ heldTexts q n :=
    Finset.single_le_sum (f := heldBy q) (fun _ _ => bot_le) (Finset.mem_range.mpr hlt)
  have hone : (heldBy q i).card = 1 := by simp [heldBy, hi, ProducerPc.text]
  have hle := Multiset.card_le_card hheld
  omega

/-- When no more texts were handed over than the ring holds, each write finds room. -/
theorem ClientsOk.room (h : ClientsOk n texts c q) (hfew : texts.length < kOutputQueueSize)
    {a : QueueAct (Option Nat)} (hstep : queueStep none q a = some r) : FindsRoom q a := by
  cases queueMove_of_step hstep with
  | @write i text hpc hlock =>
    obtain ⟨k, rfl⟩ := h.owner.exists_worker (by rw [hpc]; rfl)
    have hlt := h.pushed_lt hpc
    have hpending : q.pending.length ≤ q.pushed.length := by
      rw [QueueState.pending, List.length_drop]
      exact Nat.sub_le _ _
    intro hfull
    have hmax := h.printing.sound.items.getItemTot_eq_max.mp hfull
    simp only [kOutputQueueSize] at hmax hfew
    omega
  | _ => trivial

/-- A worker hands a text to `Push`, or none. -/
theorem ClientsOk.handOver (h : ClientsOk n texts c q) {i : Nat} (hi : i < n)
    (hwrites : (c.workers i).Writes) {text : Option Text}
    (htext : ∀ x ∈ text, (0 : UInt8) ∉ x ∧ ShortText x) (hr : handOver q i text = some r) :
    ClientsOk n (texts ++ text.toList) c r := by
  cases text with
  | none =>
    cases hr
    rw [Option.toList_none, List.append_nil]
    exact h
  | some x =>
    obtain ⟨hidle, rfl⟩ := handOver_some hr
    obtain ⟨hnul, hshort⟩ := htext x rfl
    have hbytes : (cStringOf x).bytes = x := by
      apply List.takeWhile_eq_self_iff.mpr
      intro c hc
      simpa using ne_of_mem_of_not_mem hc hnul
    refine ⟨h.printing.setProducer (some i) ?_, ?_, h.owner.setProducer i _, fun k hk => ?_⟩
    · rintro y hy
      obtain rfl : cStringOf x = y := by simpa [ProducerPc.text] using hy
      unfold FitsSlot
      rw [hbytes]
      exact hshort
    · have hhanded := h.handed
      have hheld : heldTexts (q.setProducer (some i) (.testing (cStringOf x))) n =
          heldTexts q n + {x} := by
        apply heldTexts_add hi
        · simp [heldBy, hidle, ProducerPc.text, hbytes]
        · exact fun j hj => heldBy_setProducer_ne _ hj _
      unfold HandedOver at hhanded ⊢
      rw [hheld, ← Multiset.coe_add, hhanded, add_assoc]
      rfl
    · by_cases hki : k = i
      · subst hki
        rw [setProducer_self]
        exact ⟨hi, rfl, hwrites⟩
      · rw [setProducer_ne _ (by simpa using hki)] at hk ⊢
        exact h.busy k hk

theorem ClientsOk.queue (h : ClientsOk n texts c q) {a : QueueAct (Option Nat)}
    (hready : mayStep c.main a = true) (hroom : FindsRoom q a)
    (hstep : queueStep none q a = some r) : ClientsOk n texts c r := by
  have hcall : ∀ i text, a ≠ .call i text := by
    rintro i text rfl
    cases hready
  have hfit : CallFits a := by
    cases a with
    | call i text => exact absurd rfl (hcall i text)
    | _ => trivial
  refine ⟨printing_step h.printing hroom hfit hstep, handedOver_step h.handed hcall ?_ hstep,
    ownerOk_step h.owner hcall hstep, busyOk_queue h.busy hcall hstep⟩
  rintro i rfl
  cases queueMove_of_step hstep with
  | write hpc hlock =>
    obtain ⟨k, rfl⟩ := h.owner.exists_worker (by rw [hpc]; rfl)
    exact ⟨k, (h.busy k (by simp [hpc])).1, rfl⟩

/-! ## What is printed -/

/-- What is printed was handed over, and nothing is printed twice. -/
theorem ClientsOk.output_subperm (h : ClientsOk n texts c q) : q.output.Subperm texts := by
  have hpushed : (q.pushed.map (·.bytes)).Subperm texts := by
    rw [← Multiset.coe_le, h.handed]
    exact Multiset.le_add_right _ _
  exact h.printing.output_begins.sublist.subperm.trans hpushed

/-- When all workers are done and the queue is destroyed, what was handed over is printed, or left
in the ring. -/
theorem ClientsOk.printed_perm (h : ClientsOk n texts c q) (hdone : ∀ i < n, ¬ (c.workers i).Writes)
    (hjoined : q.producers none = .joined) :
    (q.output ++ q.pending.map (·.bytes)).Perm texts := by
  have hnone : heldTexts q n = 0 := by
    apply Finset.sum_eq_zero
    intro i hi
    have hidle : q.producers (some i) = .idle := by
      by_contra hbusy
      exact hdone i (Finset.mem_range.mp hi) (h.busy i hbusy).2.2
    simp [heldBy, hidle, ProducerPc.text]
  have hhanded := h.handed
  rw [HandedOver, hnone, add_zero, Multiset.coe_eq_coe] at hhanded
  have howner := h.owner
  rw [OwnerOk, hjoined] at howner
  have hout := h.printing.output_eq fun item he => by simp [howner.2] at he
  rw [hout, QueueState.oldest, QueueState.pending, ← List.map_append, List.take_append_drop]
  exact hhanded.symm

end

end anagram
