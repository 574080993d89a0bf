-- A job with its output queue comes to its end. From any state before RunJob
-- destroys the queue, the worker of the queue can come to rest, and each worker out
-- of `Push` and out of its message. From there each step of the job can be taken,
-- with what has to follow it, until RunJob returns and the queue is destroyed with
-- an empty ring.
import Anagram.QueuedJob
import Anagram.SearchJobEnds

open interleaving

namespace anagram

section
variable (Q : QueuedJob) {s : QueuedState}

/-! ## The queue comes to rest -/

theorem leads_queue {a : QueueAct (Option Nat)} {q : QueueState (Option Nat)}
    (h : queueStep none s.queue a = some q) (hready : mayStep s.job.control.main a = true)
    (hroom : FindsRoom s.queue a) :
    Leads (queuedStep Q) (Orderly Q) s { s with queue := q } :=
  .single (a := .queue a) (by simp [queuedStep, hready, h]) fun _ => hroom

/-- The worker of the queue takes its steps. -/
theorem leads_worker (hdef : s.job.control.main ≠ .undefined)
    {bs : List (QueueAct (Option Nat))} {q : QueueState (Option Nat)}
    (hworker : ∀ b ∈ bs, IsWorker b) (hrun : run (queueStep none) s.queue bs = some q) :
    Leads (queuedStep Q) (Orderly Q) s { s with queue := q } := by
  induction bs generalizing s with
  | nil =>
    cases hrun
    exact .refl s
  | cons b bs ih =>
    obtain ⟨r, hr, hrest⟩ := Option.bind_eq_some_iff.mp hrun
    obtain ⟨hb, hbs⟩ := List.forall_mem_cons.mp hworker
    have hready : mayStep s.job.control.main b = true := by
      cases b <;> first | exact decide_eq_true hdef | exact hb.elim
    have hroom : FindsRoom s.queue b := by
      cases b <;> trivial
    exact (leads_queue Q hr hready hroom).trans (ih (s := { s with queue := r }) hdef hbs hrest)

theorem leads_rest (hdef : s.job.control.main ≠ .undefined) (h : Printing s.queue)
    (hon : s.queue.terminate_ = false) :
    ∃ q, Leads (queuedStep Q) (Orderly Q) s { s with queue := q } ∧ Resting s.queue q ∧
      AtRest q := by
  obtain ⟨bs, q, hrun, hworker, hresting, hrest⟩ := can_rest h hon none
  exact ⟨q, leads_worker Q hdef hworker hrun, hresting, hrest⟩

/-! ## Each `Push` returns -/

/-- Producer `i` is out of `Push`, and the others are where they were. -/
def Returned (i : Nat) (q r : QueueState (Option Nat)) : Prop :=
  r.producers = Function.update q.producers (some i) .idle ∧ r.terminate_ = q.terminate_

/-- It does not matter how far it had come. -/
theorem Returned.of_setProducer {i : Nat} {pc : ProducerPc} {q r : QueueState (Option Nat)}
    (h : Returned i (q.setProducer (some i) pc) r) : Returned i q r := by
  obtain ⟨hproducers, hterm⟩ := h
  refine ⟨?_, hterm⟩
  rw [hproducers]
  exact Function.update_idem ..

theorem Returned.idle {i : Nat} {q r : QueueState (Option Nat)} (h : Returned i q r) (k : Nat)
    (hk : k ≠ i → q.producers (some k) = .idle) : r.producers (some k) = .idle := by
  rw [h.1]
  by_cases hki : k = i
  · subst hki
    exact Function.update_self ..
  · rw [Function.update_of_ne (by simpa using hki)]
    exact hk hki

/-- The ring is not full at rest, and the lock is free. -/
theorem Printing.ready {q : QueueState (Option Nat)} (h : Printing q) (hrest : AtRest q) :
    q.queue.getItemTot ≠ fullTot ∧ q.queue_lock = none := by
  refine ⟨fun hfull => ?_, h.free (by rw [hrest.1]; exact id)⟩
  have hlength := h.sound.items.getItemTot_eq_max.mp hfull
  rw [hrest.2] at hlength
  cases hlength

section
variable {i : Nat} {text : CString} (hover : s.job.control.main.isOver = false)
  (hroom : s.queue.queue.getItemTot ≠ fullTot) (hlock : s.queue.queue_lock = none)
include hover hroom hlock

/-- A producer past the test writes. -/
theorem leads_write (hi : s.queue.producers (some i) = .past_test text) :
    ∃ q, Leads (queuedStep Q) (Orderly Q) s { s with queue := q } ∧ Returned i s.queue q :=
  ⟨_, leads_queue Q (step_write none hi hlock) (by simp [mayStep, hover]) hroom, rfl, rfl⟩

/-- A producer that begins its test passes it. -/
theorem leads_testing (hi : s.queue.producers (some i) = .testing text) :
    ∃ q, Leads (queuedStep Q) (Orderly Q) s { s with queue := q } ∧ Returned i s.queue q := by
  let q₁ := s.queue.setProducer (some i) (.testing_end text s.queue.queue.queue_start_index)
  let q₂ := q₁.setProducer (some i) (.past_test text)
  have h₁ : queueStep none s.queue (.readStart (some i)) = some q₁ := by
    simp [queueStep, pushStep, hi, q₁]
  have h₂ : queueStep none q₁ (.readEnd (some i)) = some q₂ := by
    simp only [queueStep, pushStep, q₁, setProducer_self]
    exact if_neg hroom
  obtain ⟨q, hleads, hreturned⟩ := leads_write Q (s := { s with queue := q₂ }) hover hroom
    hlock (setProducer_self ..)
  refine ⟨q, ?_, hreturned.of_setProducer.of_setProducer⟩
  have hfirst := leads_queue Q h₁ (by simp [mayStep, hover]) trivial
  have hsecond := leads_queue Q (s := { s with queue := q₁ }) h₂ (by simp [mayStep, hover]) trivial
  exact (hfirst.trans hsecond).trans hleads

/-- A producer whose test is half done passes it, or begins it again. -/
theorem leads_testing_end {n : Nat} (hi : s.queue.producers (some i) = .testing_end text n) :
    ∃ q, Leads (queuedStep Q) (Orderly Q) s { s with queue := q } ∧ Returned i s.queue q := by
  have hready : mayStep s.job.control.main (.readEnd (some i)) = true := by simp [mayStep, hover]
  by_cases hfull : itemTot n s.queue.queue.queue_end_index = fullTot
  · have h₁ : queueStep none s.queue (.readEnd (some i)) =
        some (s.queue.setProducer (some i) (.testing text)) := by
      simp [queueStep, pushStep, hi, hfull]
    obtain ⟨q, hleads, hreturned⟩ := leads_testing Q
      (s := { s with queue := s.queue.setProducer (some i) (.testing text) }) hover hroom hlock
      (setProducer_self ..)
    exact ⟨q, (leads_queue Q h₁ hready trivial).trans hleads, hreturned.of_setProducer⟩
  · have h₁ : queueStep none s.queue (.readEnd (some i)) =
        some (s.queue.setProducer (some i) (.past_test text)) := by
      simp [queueStep, pushStep, hi, hfull]
    obtain ⟨q, hleads, hreturned⟩ := leads_write Q
      (s := { s with queue := s.queue.setProducer (some i) (.past_test text) }) hover hroom hlock
      (setProducer_self ..)
    exact ⟨q, (leads_queue Q h₁ hready trivial).trans hleads, hreturned.of_setProducer⟩

/-- Wherever a producer is in `Push`, it can return. -/
theorem leads_returned (hi : s.queue.producers (some i) ≠ .idle →
      (s.queue.producers (some i)).text.isSome) :
    ∃ q, Leads (queuedStep Q) (Orderly Q) s { s with queue := q } ∧ Returned i s.queue q := by
  cases hpc : s.queue.producers (some i) with
  | idle => exact ⟨s.queue, .refl s, by rw [← hpc, Function.update_eq_self], rfl⟩
  | testing text => exact leads_testing Q hover hroom hlock hpc
  | testing_end text n => exact leads_testing_end Q hover hroom hlock hpc
  | past_test text => exact leads_write Q hover hroom hlock hpc
  | joining => simp [hpc, ProducerPc.text] at hi
  | joined => simp [hpc, ProducerPc.text] at hi

end

variable {Q}

theorem QueuedOk.leads (hpushable : Pushable Q) (h : QueuedOk Q s) {t : QueuedState}
    (hleads : Leads (queuedStep Q) (Orderly Q) s t) : QueuedOk Q t :=
  hleads.keeps (fun _ _ _ hs hp hstep => queuedOk_step hpushable hs hp hstep) h

theorem ne_undefined_of_not_over {main : MainAt} (h : main.isOver = false) :
    main ≠ .undefined := by
  rintro rfl
  cases h

/-- One worker returns from `Push`, and then the queue comes to rest. -/
theorem leads_out_of_push (hpushable : Pushable Q) (h : QueuedOk Q s)
    (hover : s.job.control.main.isOver = false) (hon : s.queue.terminate_ = false)
    (hrest : AtRest s.queue) (i : Nat) :
    ∃ q, Leads (queuedStep Q) (Orderly Q) s { s with queue := q } ∧ AtRest q ∧
      Returned i s.queue q := by
  obtain ⟨hroom, hlock⟩ := h.clients.printing.ready hrest
  obtain ⟨q, hleads, hproducers, hterm⟩ :=
    leads_returned Q hover hroom hlock fun hbusy => (h.clients.busy i hbusy).2.1
  obtain ⟨r, hleads', hresting, hrest'⟩ := leads_rest Q (s := { s with queue := q })
    (ne_undefined_of_not_over hover) (h.leads hpushable hleads).clients.printing (hterm.trans hon)
  refine ⟨r, hleads.trans hleads', hrest', hresting.producers_eq.trans hproducers, ?_⟩
  rw [hresting.on, hon]

/-! ## Each message comes to its end -/

theorem exists_handOver {q : QueueState (Option Nat)} {i : Nat}
    (hidle : q.producers (some i) = .idle) (text : Option Text) :
    ∃ r, handOver q i text = some r := by
  cases text with
  | none => exact ⟨_, rfl⟩
  | some x => exact ⟨_, by simp [handOver, queueStep, pushStep, hidle]; rfl⟩

/-- The call of `Push` itself moves its worker alone. -/
theorem handOver_keeps {q r : QueueState (Option Nat)} {i : Nat} {text : Option Text}
    (h : handOver q i text = some r) : r.worker = q.worker ∧ r.pending = q.pending ∧
      r.terminate_ = q.terminate_ ∧ ∀ j, j ≠ i → r.producers (some j) = q.producers (some j) := by
  cases text with
  | none =>
    cases h
    exact ⟨rfl, rfl, rfl, fun _ _ => rfl⟩
  | some x =>
    obtain ⟨-, rfl⟩ := handOver_some h
    exact ⟨rfl, rfl, rfl, fun j hj => setProducer_ne q (by simpa using hj) _⟩

/-- Worker `i` is free, the queue is at rest, and so is `output_lock`. No other worker got busy. -/
structure Settled (i : Nat) (s t : QueuedState) : Prop where
  job_eq : t.job = s.job
  rows_eq : t.rows_pushed = s.rows_pushed
  rest : AtRest t.queue
  on : t.queue.terminate_ = false
  unlocked : t.shared.output_lock = none
  free : Free t i
  others : ∀ j, j ≠ i → Free s j → Free t j

/-- A worker takes the steps of its message, and comes out of `Push` before each of them. -/
theorem leads_settled (hpushable : Pushable Q) {i : Nat} (h : QueuedOk Q s)
    (hover : s.job.control.main.isOver = false) (hon : s.queue.terminate_ = false)
    (hrest : AtRest s.queue) (hlock : ∀ j, s.shared.output_lock = some j → j = i) :
    ∃ t, Leads (queuedStep Q) (Orderly Q) s t ∧ QueuedOk Q t ∧ Settled i s t := by
  induction hn : (s.shared.messages i).toIdle using Nat.strong_induction_on generalizing s with
  | _ n ih =>
    subst hn
    obtain ⟨q, hleads, hrest', hreturned⟩ := leads_out_of_push hpushable h hover hon hrest i
    have hout : q.producers (some i) = .idle := hreturned.idle i fun hne => absurd rfl hne
    have hfree : ∀ j, Free s j → q.producers (some j) = .idle := fun j hj =>
      hreturned.idle j fun _ => isIdle_iff.mp hj.1
    by_cases hidle : s.shared.messages i = .idle
    · have hunlocked : s.shared.output_lock = none := by
        refine Option.eq_none_iff_forall_ne_some.mpr fun j hj => ?_
        obtain rfl := hlock j hj
        have hholds := (h.lock j).mp hj
        rwa [hidle] at hholds
      exact ⟨_, hleads, h.leads hpushable hleads, rfl, rfl, hrest', hreturned.2.trans hon,
        hunlocked, ⟨isIdle_iff.mpr hout, hidle⟩,
        fun j _ hj => ⟨isIdle_iff.mpr (hfree j hj), hj.2⟩⟩
    · obtain ⟨shared, hshared⟩ := h.lock.exists_step hidle hlock
      have hmove := messageMove_of_step hshared
      obtain ⟨r, hr⟩ := exists_handOver hout (newPush s.shared.world shared.world)
      obtain ⟨hworker, hpending, hterm, hothers⟩ := handOver_keeps hr
      let t : QueuedState := { s with shared := shared, queue := r }
      have hstep : queuedStep Q { s with queue := q } (.message i) = some t := by
        simp [queuedStep, QueuedState.outside, isIdle_iff.mpr hout, hover, hshared, hr, t]
      have hleads' := hleads.trans (.single hstep trivial)
      obtain ⟨u, hleads'', hok, hsettled⟩ := ih _ hmove.toIdle_lt (s := t)
        (h.leads hpushable hleads') hover ((hterm.trans hreturned.2).trans hon)
        ⟨hworker.trans hrest'.1, hpending.trans hrest'.2⟩ (hmove.lock hlock) rfl
      refine ⟨u, hleads'.trans hleads'', hok, hsettled.job_eq, hsettled.rows_eq, hsettled.rest,
        hsettled.on, hsettled.unlocked, hsettled.free,
        fun j hj hjs => hsettled.others j hj ⟨?_, ?_⟩⟩
      · exact isIdle_iff.mpr ((hothers j hj).trans (hfree j hjs))
      · exact (hmove.messages_ne hj).trans hjs.2

/-! ## From one quiet state to the next -/

/-- All workers are free, and the queue is at rest and has not been told to end. -/
structure Quiet (s : QueuedState) : Prop where
  rest : AtRest s.queue
  on : s.queue.terminate_ = false
  free : ∀ i, Free s i

theorem Quiet.idle (h : Quiet s) (i : Nat) : s.queue.producers (some i) = .idle :=
  isIdle_iff.mp (h.free i).1

/-- Only a worker that writes is not free. -/
theorem QueuedOk.free (h : QueuedOk Q s) {i : Nat}
    (hnot : i < Q.job.thread_tot → ¬ (s.job.control.workers i).Writes) : Free s i := by
  constructor
  · refine isIdle_iff.mpr (by_contra fun hbusy => ?_)
    obtain ⟨hlt, -, hwrites⟩ := h.clients.busy i hbusy
    exact hnot hlt hwrites
  · refine by_contra fun hbusy => ?_
    obtain ⟨hlt, hwrites⟩ := h.messages i hbusy
    exact hnot hlt hwrites

/-- All workers come out of `Push` and out of their messages, the one with the lock before the
others. -/
theorem leads_quiet (hpushable : Pushable Q) (h : QueuedOk Q s)
    (hover : s.job.control.main.isOver = false) (hon : s.queue.terminate_ = false) :
    ∃ t, Leads (queuedStep Q) (Orderly Q) s t ∧ QueuedOk Q t ∧ Quiet t ∧ t.job = s.job := by
  obtain ⟨q, hleads, hresting, hrest⟩ :=
    leads_rest Q (ne_undefined_of_not_over hover) h.clients.printing hon
  obtain ⟨k, hholder⟩ : ∃ k, ∀ j, s.shared.output_lock = some j → j = k := by
    cases s.shared.output_lock with
    | none => exact ⟨0, fun j hj => nomatch hj⟩
    | some k => exact ⟨k, fun j hj => (Option.some.inj hj).symm⟩
  have hbelow : ∀ n, ∃ t, Leads (queuedStep Q) (Orderly Q) s t ∧ QueuedOk Q t ∧ t.job = s.job ∧
      AtRest t.queue ∧ t.queue.terminate_ = false ∧ t.shared.output_lock = none ∧
      ∀ i < n, Free t i := by
    intro n
    induction n with
    | zero =>
      obtain ⟨t, hleads', hok, hsettled⟩ := leads_settled hpushable (s := { s with queue := q })
        (h.leads hpushable hleads) hover hresting.on hrest hholder
      exact ⟨t, hleads.trans hleads', hok, hsettled.job_eq, hsettled.rest, hsettled.on,
        hsettled.unlocked, fun i hi => absurd hi (Nat.not_lt_zero i)⟩
    | succ n ih =>
      obtain ⟨t, hleads', hok, hjob, hrest', hon', hunlocked, hfree⟩ := ih
      obtain ⟨u, hleads'', hok', hsettled⟩ := leads_settled (i := n) hpushable hok (hjob ▸ hover)
        hon' hrest' fun j hj => by simp [hunlocked] at hj
      refine ⟨u, hleads'.trans hleads'', hok', hsettled.job_eq.trans hjob, hsettled.rest,
        hsettled.on, hsettled.unlocked, fun i hi => ?_⟩
      by_cases hin : i = n
      · exact hin ▸ hsettled.free
      · exact hsettled.others i hin (hfree i (by omega))
  obtain ⟨t, hleads', hok, hjob, hrest', hon', -, hfree⟩ := hbelow Q.job.thread_tot
  refine ⟨t, hleads', hok, ⟨hrest', hon', fun i => ?_⟩, hjob⟩
  by_cases hi : i < Q.job.thread_tot
  · exact hfree i hi
  · exact hok.free fun hlt => absurd hlt hi

/-- When all workers but one are free, this one becomes free. -/
theorem leads_quiet_again (hpushable : Pushable Q) {i : Nat} (h : QueuedOk Q s)
    (hover : s.job.control.main.isOver = false) (hon : s.queue.terminate_ = false)
    (hrest : AtRest s.queue) (hothers : ∀ j, j ≠ i → Free s j) :
    ∃ t, Leads (queuedStep Q) (Orderly Q) s t ∧ QueuedOk Q t ∧ Quiet t ∧ t.job = s.job ∧
      t.rows_pushed = s.rows_pushed := by
  have hholder : ∀ j, s.shared.output_lock = some j → j = i := by
    intro j hj
    by_contra hji
    have hholds := (h.lock j).mp hj
    rwa [(hothers j hji).2] at hholds
  obtain ⟨t, hleads, hok, hsettled⟩ := leads_settled hpushable h hover hon hrest hholder
  refine ⟨t, hleads, hok, ⟨hsettled.rest, hsettled.on, fun j => ?_⟩, hsettled.job_eq,
    hsettled.rows_eq⟩
  by_cases hji : j = i
  · exact hji ▸ hsettled.free
  · exact hsettled.others j hji (hothers j hji)

/-- Worker 0 pushes the rows that are left. -/
theorem leads_rows (hpushable : Pushable Q) (h : QueuedOk Q s) (hquiet : Quiet s) {i : Nat}
    (hrows : InRows Q s i) :
    ∃ t, Leads (queuedStep Q) (Orderly Q) s t ∧ QueuedOk Q t ∧ Quiet t ∧ t.job = s.job ∧
      Q.rows.length ≤ t.rows_pushed := by
  induction hn : Q.rows.length - s.rows_pushed generalizing s with
  | zero => exact ⟨s, .refl s, h, hquiet, rfl, by omega⟩
  | succ n ih =>
    have hlt : s.rows_pushed < Q.rows.length := by omega
    have htext : Q.rows[s.rows_pushed]? = some Q.rows[s.rows_pushed] :=
      List.getElem?_eq_getElem hlt
    obtain ⟨q, hq⟩ := exists_handOver (hquiet.idle i) (some Q.rows[s.rows_pushed])
    obtain ⟨hworker, hpending, hterm, hproducers⟩ := handOver_keeps hq
    let t : QueuedState := { s with
      shared := { s.shared with world := s.shared.world.push Q.rows[s.rows_pushed] }
      rows_pushed := s.rows_pushed + 1
      queue := q }
    have hstep : queuedStep Q s (.row i) = some t := by
      simp [queuedStep, hrows, htext, hq, t]
    have hleads : Leads (queuedStep Q) (Orderly Q) s t := .single hstep trivial
    have hothers : ∀ j, j ≠ i → Free t j := fun j hj =>
      ⟨isIdle_iff.mpr ((hproducers j hj).trans (hquiet.idle j)), (hquiet.free j).2⟩
    obtain ⟨u, hleads', hok, hquiet', hjob, hpushed⟩ := leads_quiet_again hpushable (s := t)
      (h.leads hpushable hleads) hrows.1 (hterm.trans hquiet.on)
      ⟨hworker.trans hquiet.rest.1, hpending.trans hquiet.rest.2⟩ hothers
    have hrows' : InRows Q u i := by
      unfold InRows
      rw [hjob]
      exact hrows
    obtain ⟨v, hleads'', hok', hquiet'', hjob', hdone⟩ := ih hok hquiet' hrows' (by
      rw [hpushed]
      dsimp only [t]
      omega)
    exact ⟨v, (hleads.trans hleads').trans hleads'', hok', hquiet'', hjob'.trans hjob, hdone⟩

/-- A step of the job can be taken from a quiet state, with what has to follow it. -/
theorem leads_step (hpushable : Pushable Q) {w w' : WriteState} {a : WriteAct}
    (h : QueuedOk Q s) (hquiet : Quiet s) (hjob : s.job = w) (hfirst : TakesFirst w a)
    (hstep : writeStep Q.job w a = some w') :
    ∃ t, Leads (queuedStep Q) (Orderly Q) s t ∧ QueuedOk Q t ∧ Quiet t ∧ t.job = w' := by
  subst hjob
  cases a with
  | move a =>
    -- the rows come before the end of the gather block
    obtain ⟨t, hleads, hok, hquiet', hjob, hready⟩ : ∃ t, Leads (queuedStep Q) (Orderly Q) s t ∧
        QueuedOk Q t ∧ Quiet t ∧ t.job = s.job ∧ MayGoOn Q t a := by
      cases a with
      | runJob => exact ⟨s, .refl s, h, hquiet, rfl, trivial⟩
      | worker i =>
        by_cases hrows : InRows Q s i
        · obtain ⟨t, hleads, hok, hquiet', hjob, hdone⟩ := leads_rows hpushable h hquiet hrows
          exact ⟨t, hleads, hok, hquiet', hjob, hquiet'.free i, fun _ => hdone⟩
        · exact ⟨s, .refl s, h, hquiet, rfl, hquiet.free i, fun hin => absurd hin hrows⟩
    rw [← hjob] at hstep hfirst
    have hmove : Leads (queuedStep Q) (Orderly Q) t { t with job := w' } :=
      .single (a := .move a) (by simp [queuedStep, hready, hstep]) hfirst
    exact ⟨_, hleads.trans hmove, hok.leads hpushable hmove,
      ⟨hquiet'.rest, hquiet'.on, hquiet'.free⟩, rfl⟩
  | write i =>
    obtain ⟨x, hlog⟩ := log_of_write hstep
    have hover : w'.control.main.isOver = false := by
      have hbefore := not_over_of_step hstep
      cases writeMove_of_step hstep <;> exact hbefore
    let shared := s.shared.record Q.flags i (s.job.control.workers i) x
    obtain ⟨q, hq⟩ := exists_handOver (hquiet.idle i) (newPush s.shared.world shared.world)
    obtain ⟨hworker, hpending, hterm, hproducers⟩ := handOver_keeps hq
    let t : QueuedState := { s with job := w', shared := shared, queue := q }
    have hwrite : queuedStep Q s (.write i) = some t := by
      simp [queuedStep, hquiet.free i, hstep, hlog, hq, shared, t]
    have hleads : Leads (queuedStep Q) (Orderly Q) s t := .single hwrite trivial
    have hothers : ∀ j, j ≠ i → Free t j := fun j hj =>
      ⟨isIdle_iff.mpr ((hproducers j hj).trans (hquiet.idle j)),
        (record_messages_ne Q.flags s.shared hj _ x).trans (hquiet.free j).2⟩
    obtain ⟨u, hleads', hok, hquiet', hjob, -⟩ := leads_quiet_again hpushable (s := t)
      (h.leads hpushable hleads) hover (hterm.trans hquiet.on)
      ⟨hworker.trans hquiet.rest.1, hpending.trans hquiet.rest.2⟩ hothers
    exact ⟨u, hleads.trans hleads', hok, hquiet', hjob⟩

/-! ## The end -/

/-- When `RunJob` has returned, the queue is destroyed with an empty ring. -/
theorem leads_joined (h : QueuedOk Q s) (hquiet : Quiet s)
    (hret : s.job.control.main.isReturned = true) :
    ∃ q, Leads (queuedStep Q) (Orderly Q) s { s with queue := q } ∧
      q.producers none = .joined ∧ q.pending = [] := by
  have hidle : s.queue.producers none = .idle := by
    have howner := h.clients.owner
    have hon := hquiet.on
    unfold OwnerOk at howner
    split at howner
    · assumption
    · simp [hon] at howner
    · simp [hon] at howner
    · exact howner.elim
  obtain ⟨hworker, hpending⟩ := hquiet.rest
  let q₁ : QueueState (Option Nat) :=
    { s.queue.setProducer none .joining with terminate_ := true }
  let q₂ : QueueState (Option Nat) := { q₁ with worker := .exited }
  have h₁ : queueStep none s.queue .terminate = some q₁ := by
    simp [queueStep, ownerStep, hidle, q₁]
  have h₂ : queueStep none q₁ .test = some q₂ := by
    simp [queueStep, workerStep, q₁, q₂, QueueState.setProducer, hworker]
  have h₃ : queueStep none q₂ .join = some (q₂.setProducer none .joined) := by
    simp [queueStep, ownerStep, q₁, q₂, QueueState.setProducer]
  have hdef : s.job.control.main ≠ .undefined := by
    intro hpc
    rw [hpc] at hret
    cases hret
  have hfirst := leads_queue Q h₁ hret trivial
  have hsecond := leads_queue Q (s := { s with queue := q₁ }) h₂ (decide_eq_true hdef) trivial
  have hthird := leads_queue Q (s := { s with queue := q₂ }) h₃ (decide_eq_true hdef) trivial
  exact ⟨_, (hfirst.trans hsecond).trans hthird, setProducer_self .., hpending⟩

/-- As long as the queue has not been told to end, all workers can become free. When `RunJob` has
returned, they are. -/
theorem can_be_quiet (hpushable : Pushable Q) (hsmooth : Smooth Q.job) (h : QueuedOk Q s)
    (hnot : NotFailed s.job) (hon : s.queue.terminate_ = false) :
    ∃ t, Leads (queuedStep Q) (Orderly Q) s t ∧ QueuedOk Q t ∧ Quiet t ∧ t.job = s.job := by
  by_cases hret : s.job.control.main = .returned true
  · obtain ⟨q, hleads, hresting, hrest⟩ :=
      leads_rest Q (by simp [hret]) h.clients.printing hon
    have hok := h.leads hpushable hleads
    refine ⟨_, hleads, hok, ⟨hrest, hresting.on, fun i => hok.free fun hlt => ?_⟩, rfl⟩
    exact (h.finished hret i (hsmooth.thread_tot ▸ hlt)).2
  · exact leads_quiet hpushable h (not_over_of_not_returned h.written hsmooth hnot hret) hon

/-- Then the job can come to its end, with everything printed. -/
theorem can_end (hpushable : Pushable Q) (hsmooth : Smooth Q.job) (h : QueuedOk Q s)
    (hnot : NotFailed s.job) (hon : s.queue.terminate_ = false) :
    ∃ t, Leads (queuedStep Q) (Orderly Q) s t ∧ QueuedOk Q t ∧
      t.job.control.main = .returned true ∧ t.queue.producers none = .joined ∧
      t.queue.pending = [] := by
  obtain ⟨u, hleads, hok, hquiet, hjob⟩ := can_be_quiet hpushable hsmooth h hnot hon
  obtain ⟨bs, w, hrun, hfirst, hret⟩ := can_return hsmooth ⟨h.written, hnot⟩
  have hmatched : ∃ t, Leads (queuedStep Q) (Orderly Q) u t ∧
      QueuedOk Q t ∧ Quiet t ∧ t.job = w :=
    Leads.matched (R := fun w t => QueuedOk Q t ∧ Quiet t ∧ t.job = w)
      (fun w a w' t ht hp hstep => leads_step hpushable ht.1 ht.2.1 ht.2.2 hp hstep)
      ⟨bs, hrun, hfirst⟩ ⟨hok, hquiet, hjob⟩
  obtain ⟨t, hleads', hok', hquiet', rfl⟩ := hmatched
  obtain ⟨r, hleads'', hjoined, hpending⟩ := leads_joined hok' hquiet' (by rw [hret]; rfl)
  exact ⟨_, (hleads.trans hleads').trans hleads'', hok'.leads hpushable hleads'', hret, hjoined,
    hpending⟩

/-! ## The job in a run with its queue -/

/-- Without the steps of the queue, a run is a run of the job. -/
theorem leads_job {t : QueuedState} (h : Leads (queuedStep Q) (Orderly Q) s t) :
    Leads (writeStep Q.job) TakesFirst s.job t.job := by
  have hmatched : ∃ w, Leads (writeStep Q.job) TakesFirst s.job w ∧ t.job = w := by
    apply Leads.matched (R := fun s w => s.job = w) _ h rfl
    rintro s a t w rfl horder hstep
    cases queuedMove_of_step hstep with
    | move hready hmove => exact ⟨_, .single hmove horder, rfl⟩
    | write hfree hwrite => exact ⟨_, .single hwrite trivial, rfl⟩
    | message => exact ⟨_, .refl _, rfl⟩
    | row => exact ⟨_, .refl _, rfl⟩
    | queue => exact ⟨_, .refl _, rfl⟩
  obtain ⟨w, hleads, rfl⟩ := hmatched
  exact hleads

end

end anagram
