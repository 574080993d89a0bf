-- The ring as a queue. Operation by operation, from the fresh ring on, it gives
-- what a bounded queue of the texts gives, however often the indices go round.
import Anagram.OutputQueue

open ring interleaving

namespace anagram

/-! ## One operation at a time -/

/-- The ring, and what the calls of `Pop` have given: `none` for `nullptr`, and otherwise what can
be read at the address. -/
structure RingState where
  queue : OutputQueue
  popped : List (Option (Option Text))

/-- A call of `Push` with the ring not full, or a call of `Pop`. With the ring full, and no one
else to empty it, `Push` would wait for ever. -/
def ringStep (s : RingState) : FifoOp CString → Option RingState
  | .push text =>
    if s.queue.getItemTot = UInt64.ofNat (kOutputQueueSize - 1) then none
    else some { s with queue := s.queue.write (some text) }
  | .pop => some ⟨s.queue.pop.2, s.popped ++ [s.queue.pop.1.map s.queue.pop.2.printed]⟩

/-- The memory of a fresh ring is as it happens to be. -/
def RingState.start (memory : Nat → UInt8) : RingState := ⟨⟨memory, 0, 0⟩, []⟩

/-- The pushed text, if there is one, fits its slot. -/
def PushFits : FifoOp CString → Prop
  | .push text => FitsSlot text
  | .pop => True

/-! ## The ring follows the queue -/

/-- The ring has the items of the queue in its slots, and its pops gave their texts. -/
structure Follows (s : RingState) (q : Fifo CString) : Prop where
  items : s.queue.Items q.items
  fit : ∀ text ∈ q.items, FitsSlot text
  popped : s.popped = q.popped.map (Option.map fun text => some text.bytes)

theorem follows_start (memory : Nat → UInt8) : Follows (.start memory) ⟨[], []⟩ :=
  ⟨OutputQueue.items_start memory, by simp, rfl⟩

/-- `Pop` gives `nullptr` exactly when there is no item. -/
theorem Follows.pop_eq_none {s : RingState} {q : Fifo CString} (h : Follows s q) :
    s.queue.pop.1 = none ↔ q.items = [] := by
  rw [← h.items.getItemTot_eq_zero]
  unfold OutputQueue.pop
  split_ifs with htot
  · simp [htot]
  · simpa using htot

/-- At the address that `Pop` gives is the oldest text. -/
theorem Follows.pop_eq_some {s : RingState} {q : Fifo CString} (h : Follows s q) {text : CString}
    {rest : List CString} (hitems : q.items = text :: rest) :
    ∃ item, s.queue.pop.1 = some item ∧ s.queue.pop.2.printed item = some text.bytes := by
  have hfit : FitsSlot text := h.fit text (by simp [hitems])
  have hall := h.items
  rw [hitems] at hall
  obtain ⟨hitem, hslot, -⟩ := hall.pop
  refine ⟨_, hitem, ?_⟩
  have hprinted := hslot.printed hall.first_lt hfit
  unfold OutputQueue.pop
  split_ifs
  · exact hprinted
  · exact hprinted

/-- Each operation on the ring does what it does on the queue. -/
theorem follows_step {s t : RingState} {q : Fifo CString} {op : FifoOp CString}
    (h : Follows s q) (hfits : PushFits op) (hstep : ringStep s op = some t) :
    ∃ q', fifoStep (kOutputQueueSize - 1) q op = some q' ∧ Follows t q' := by
  cases op with
  | push text =>
    simp only [ringStep] at hstep
    split_ifs at hstep with hfull
    cases hstep
    have hne : q.items.length ≠ kOutputQueueSize - 1 := fun he =>
      hfull (h.items.getItemTot_eq_max.mpr he)
    have hle := h.items.length_le
    refine ⟨_, if_neg hne, h.items.write (by omega) text, ?_, h.popped⟩
    intro c hc
    rcases List.mem_append.mp hc with hc | hc
    · exact h.fit c hc
    · exact List.mem_singleton.mp hc ▸ hfits
  | pop =>
    cases hstep
    refine ⟨_, rfl, ?_, fun c hc => h.fit c (List.mem_of_mem_tail hc), ?_⟩
    · cases hitems : q.items with
      | nil =>
        have hnil := h.items
        rw [hitems] at hnil
        rw [hnil.pop_nil]
        exact hnil
      | cons text rest =>
        have hcons := h.items
        rw [hitems] at hcons
        exact hcons.pop.2.2
    · dsimp only
      rw [List.map_append, List.map_singleton, h.popped]
      cases hitems : q.items with
      | nil =>
        rw [h.pop_eq_none.mpr hitems]
        rfl
      | cons text rest =>
        obtain ⟨item, hitem, hprinted⟩ := h.pop_eq_some hitems
        rw [hitem, Option.map_some, hprinted]
        rfl

/-- The test of `Push` lets an operation through when the queue takes it. -/
theorem follows_step_back {s : RingState} {q q' : Fifo CString} {op : FifoOp CString}
    (h : Follows s q) (hfits : PushFits op)
    (hstep : fifoStep (kOutputQueueSize - 1) q op = some q') :
    ∃ t, ringStep s op = some t ∧ Follows t q' := by
  have hgoes : ∃ t, ringStep s op = some t := by
    cases op with
    | push text =>
      simp only [fifoStep] at hstep
      split_ifs at hstep with hfull
      exact ⟨_, if_neg fun he => hfull (h.items.getItemTot_eq_max.mp he)⟩
    | pop => exact ⟨_, rfl⟩
  obtain ⟨t, ht⟩ := hgoes
  obtain ⟨u, hu, hfollows⟩ := follows_step h hfits ht
  rw [hstep] at hu
  cases hu
  exact ⟨t, ht, hfollows⟩

/-- The ring goes on as long as the queue has room. -/
theorem ring_runs (memory : Nat → UInt8) {ops : List (FifoOp CString)}
    (hfits : ∀ op ∈ ops, PushFits op) {q : Fifo CString}
    (hrun : run (fifoStep (kOutputQueueSize - 1)) ⟨[], []⟩ ops = some q) :
    ∃ s, run ringStep (.start memory) ops = some s := by
  obtain ⟨s, hs, -⟩ := run_simulates (R := fun q s => Follows s q) (fun op => [op])
    (fun q op q' s h hp hstep => by
      obtain ⟨t, ht, h'⟩ := follows_step_back h hp hstep
      exact ⟨t, run_cons ht, h'⟩)
    (follows_start memory) (along_of_forall_mem fun op hop _ => hfits op hop) hrun
  rw [List.flatMap_singleton'] at hs
  exact ⟨s, hs⟩

/-- Every sequence of operations on a fresh ring, where `Push` is called with the ring not full and
texts that fit their slots, gives what a bounded queue gives. The indices stay in range,
`GetItemTot` is the number of the items pushed and not yet popped, and the next `Pop` gives
`nullptr` if there are none, and the oldest text otherwise. -/
theorem the_ring_gives_what_a_bounded_queue_gives (memory : Nat → UInt8)
    {ops : List (FifoOp CString)} (hfits : ∀ op ∈ ops, PushFits op) {s : RingState}
    (hrun : run ringStep (.start memory) ops = some s) :
    ∃ q, run (fifoStep (kOutputQueueSize - 1)) ⟨[], []⟩ ops = some q ∧
      s.popped = q.popped.map (Option.map fun text => some text.bytes) ∧
      pushes ops = q.popped.filterMap id ++ q.items ∧
      s.queue.queue_start_index < kOutputQueueSize ∧
      s.queue.queue_end_index < kOutputQueueSize ∧
      s.queue.getItemTot.toNat = q.items.length ∧
      (s.queue.pop.1 = none ↔ q.items = []) ∧
      ∀ text rest, q.items = text :: rest →
        ∃ item, s.queue.pop.1 = some item ∧ s.queue.pop.2.printed item = some text.bytes := by
  obtain ⟨q, hq, hfollows⟩ := run_simulates (fun op => [op])
    (fun s op t q h hp hstep => by
      obtain ⟨q', hq', h'⟩ := follows_step h hp hstep
      exact ⟨q', run_cons hq', h'⟩)
    (follows_start memory) (along_of_forall_mem fun op hop _ => hfits op hop) hrun
  rw [List.flatMap_singleton'] at hq
  refine ⟨q, hq, hfollows.popped, fifo_conserves hq, hfollows.items.next_lt,
    hfollows.items.first_lt, hfollows.items.getItemTot_eq, hfollows.pop_eq_none, ?_⟩
  exact fun text rest hitems => hfollows.pop_eq_some hitems

theorem the_ring_gives_tea_and_then_eat :
    ∃ tea eat : CString, tea.bytes = bytes "tea" ∧ eat.bytes = bytes "eat" ∧
      ∃ s, run ringStep (.start fun _ => 7) [.push tea, .push eat, .pop] = some s ∧
        ∃ q, run (fifoStep (kOutputQueueSize - 1)) ⟨[], []⟩ [.push tea, .push eat, .pop] = some q ∧
          s.popped = q.popped.map (Option.map fun text => some text.bytes) ∧
          pushes [.push tea, .push eat, .pop] = q.popped.filterMap id ++ q.items ∧
          s.queue.queue_start_index < kOutputQueueSize ∧
          s.queue.queue_end_index < kOutputQueueSize ∧
          s.queue.getItemTot.toNat = q.items.length ∧
          (s.queue.pop.1 = none ↔ q.items = []) ∧
          ∀ text rest, q.items = text :: rest →
            ∃ item, s.queue.pop.1 = some item ∧
              s.queue.pop.2.printed item = some text.bytes := by
  have hfits : ∀ op ∈ [FifoOp.push ⟨bytes "tea", by decide⟩, .push ⟨bytes "eat", by decide⟩, .pop],
      PushFits op := by
    simp only [List.forall_mem_cons, List.not_mem_nil, false_implies, implies_true]
    exact ⟨show (bytes "tea").length < 256 by decide, show (bytes "eat").length < 256 by decide,
      trivial, trivial⟩
  obtain ⟨s, hs⟩ := ring_runs (fun _ => 7) hfits rfl
  exact ⟨_, _, rfl, rfl, s, hs, the_ring_gives_what_a_bounded_queue_gives _ hfits hs⟩

end anagram
