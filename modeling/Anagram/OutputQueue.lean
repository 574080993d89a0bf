-- The ring of output_queue.cc: slots of a fixed size in one block of memory,
-- and two indices. The laws connect the number of items, which the code
-- computes with wrapping unsigned integers, and what `Pop` leads to with the
-- texts that were pushed.
import Anagram.Machine
import Anagram.General.Ring

open ring

namespace anagram

def kOutputQueueSize : Nat := 256

def kOutputQueueItemSize : Nat := 256

/-- The memory of the slots, and the indices. `queue_start_index` is that of the slot to write,
and `queue_end_index` that of the oldest item. -/
structure OutputQueue where
  queue : Nat → UInt8
  queue_start_index : Nat
  queue_end_index : Nat

/-- `std::strncpy(loc, text, n)`: at most `n` bytes of the text, and zeros up to `n`. -/
def strncpy (memory : Nat → UInt8) (loc : Nat) (text : Text) (n : Nat) : Nat → UInt8 :=
  fun a => if loc ≤ a ∧ a < loc + n then text.getD (a - loc) 0 else memory a

theorem correctTot_decreases {tot : UInt64} (h : tot > UInt64.ofNat kOutputQueueSize) :
    (if tot + UInt64.ofNat kOutputQueueSize > UInt64.ofNat kOutputQueueSize then
      2 ^ 64 - (tot + UInt64.ofNat kOutputQueueSize).toNat else 0) <
    if tot > UInt64.ofNat kOutputQueueSize then 2 ^ 64 - tot.toNat else 0 := by
  have hsize : (UInt64.ofNat kOutputQueueSize).toNat = 256 := rfl
  have hmax := tot.toNat_lt
  have hsum := UInt64.toNat_add tot (UInt64.ofNat kOutputQueueSize)
  rw [if_pos h]
  simp only [gt_iff_lt, UInt64.lt_iff_toNat_lt] at h ⊢
  rw [hsize] at *
  split <;> omega

/-- The loop of `GetItemTot`, on a difference that may have wrapped. -/
def correctTot (tot : UInt64) : UInt64 :=
  if tot > UInt64.ofNat kOutputQueueSize then correctTot (tot + UInt64.ofNat kOutputQueueSize)
  else tot
termination_by if tot > UInt64.ofNat kOutputQueueSize then 2 ^ 64 - tot.toNat else 0
decreasing_by exact correctTot_decreases ‹_›

/-- `GetItemTot`, from what it reads of the two indices. -/
def itemTot (start_index end_index : Nat) : UInt64 :=
  correctTot (UInt64.ofNat start_index - UInt64.ofNat end_index)

def OutputQueue.getItemTot (q : OutputQueue) : UInt64 :=
  itemTot q.queue_start_index q.queue_end_index

/-- `if (++index >= queue_size_) index = 0;` -/
def bumpIndex (index : Nat) : Nat := if index + 1 ≥ kOutputQueueSize then 0 else index + 1

/-- `Pop`: the address of the oldest item, or `nullptr`. -/
def OutputQueue.pop (q : OutputQueue) : Option Nat × OutputQueue :=
  if q.getItemTot ≠ 0 then
    (some (q.queue_end_index * kOutputQueueItemSize),
      { q with queue_end_index := bumpIndex q.queue_end_index })
  else (none, q)

/-- What `Push` does under the lock. -/
def OutputQueue.write (q : OutputQueue) (text : Option CString) : OutputQueue :=
  let queue := match text with
    | some text => strncpy q.queue (q.queue_start_index * kOutputQueueItemSize) text.bytes
        kOutputQueueItemSize
    | none => q.queue
  { q with queue := queue, queue_start_index := bumpIndex q.queue_start_index }

/-- The C string at an address, if its NUL is among the next `n` bytes. -/
def cStringAt (memory : Nat → UInt8) : Nat → Nat → Option Text
  | 0, _ => none
  | n + 1, loc =>
    if memory loc = 0 then some []
    else (cStringAt memory n (loc + 1)).map (memory loc :: ·)

/-- What `std::cout << item` prints. There is nothing to print when the memory of the slots ends
before a NUL. -/
def OutputQueue.printed (q : OutputQueue) (item : Nat) : Option Text :=
  cStringAt q.queue (kOutputQueueSize * kOutputQueueItemSize - item) item

/-- The text leaves room for its NUL in a slot. -/
def FitsSlot (text : CString) : Prop := text.bytes.length < kOutputQueueItemSize

/-! ## The number of items -/

theorem itemTot_toNat {i j : Nat} (hi : i < kOutputQueueSize) (hj : j < kOutputQueueSize) :
    (itemTot i j).toNat = if j ≤ i then i - j else i + kOutputQueueSize - j := by
  have hsize : (UInt64.ofNat kOutputQueueSize).toNat = 256 := rfl
  simp only [kOutputQueueSize] at hi hj
  have hsub : (UInt64.ofNat i - UInt64.ofNat j).toNat = (2 ^ 64 - j + i) % 2 ^ 64 := by
    rw [UInt64.toNat_sub, UInt64.toNat_ofNat_of_lt' (by simp [UInt64.size]; omega),
      UInt64.toNat_ofNat_of_lt' (by simp [UInt64.size]; omega)]
  unfold itemTot correctTot
  by_cases hle : j ≤ i
  · rw [if_pos hle, if_neg, hsub]
    · omega
    · rw [gt_iff_lt, UInt64.lt_iff_toNat_lt, hsub, hsize]
      omega
  · rw [if_neg hle, if_pos]
    · -- one turn of the loop undoes the wrap
      unfold correctTot
      have hsum := UInt64.toNat_add (UInt64.ofNat i - UInt64.ofNat j)
        (UInt64.ofNat kOutputQueueSize)
      rw [hsub, hsize] at hsum
      rw [if_neg, hsum]
      · simp only [kOutputQueueSize]
        omega
      · rw [gt_iff_lt, UInt64.lt_iff_toNat_lt, hsum, hsize]
        omega
    · rw [gt_iff_lt, UInt64.lt_iff_toNat_lt, hsub, hsize]
      omega

/-! ## Slots -/

namespace OutputQueue

/-- Slot `i` holds what `strncpy` copies of the text. -/
def SlotHolds (q : OutputQueue) (i : Nat) (text : CString) : Prop :=
  ∀ j < kOutputQueueItemSize, q.queue (i * kOutputQueueItemSize + j) = text.bytes.getD j 0

/-- The items of the ring are the texts, oldest first. -/
def Items (q : OutputQueue) (texts : List CString) : Prop :=
  ring.Holds kOutputQueueSize q.SlotHolds q.queue_end_index q.queue_start_index texts

theorem items_start (memory : Nat → UInt8) : Items ⟨memory, 0, 0⟩ [] :=
  holds_nil (by simp [kOutputQueueSize])

theorem Items.length_le {q : OutputQueue} {texts : List CString} (h : q.Items texts) :
    texts.length ≤ kOutputQueueSize - 1 := Nat.le_sub_one_of_lt h.length_lt

/-- `GetItemTot` is the number of items. -/
theorem Items.getItemTot_eq {q : OutputQueue} {texts : List CString} (h : q.Items texts) :
    q.getItemTot.toNat = texts.length := by
  rw [getItemTot, itemTot_toNat h.next_lt h.first_lt, h.length_eq]

theorem Items.getItemTot_eq_zero {q : OutputQueue} {texts : List CString} (h : q.Items texts) :
    q.getItemTot = 0 ↔ texts = [] := by
  rw [← UInt64.toNat_inj, h.getItemTot_eq, ← List.length_eq_zero_iff]
  rfl

/-- The test of `Push` finds a full ring when all slots but one hold an item. -/
theorem Items.getItemTot_eq_max {q : OutputQueue} {texts : List CString} (h : q.Items texts) :
    q.getItemTot = UInt64.ofNat (kOutputQueueSize - 1) ↔ texts.length = kOutputQueueSize - 1 := by
  rw [← UInt64.toNat_inj, h.getItemTot_eq]
  rfl

theorem slotHolds_write (q : OutputQueue) (text : CString) :
    (q.write (some text)).SlotHolds q.queue_start_index text := by
  intro j hj
  simp only [write, strncpy]
  rw [if_pos (by omega), Nat.add_sub_cancel_left]

/-- A write leaves the other slots as they are. -/
theorem SlotHolds.write {q : OutputQueue} {i : Nat} {text : CString} (h : q.SlotHolds i text)
    (hi : i ≠ q.queue_start_index) (new : CString) : (q.write (some new)).SlotHolds i text := by
  intro j hj
  have hout : ¬ (q.queue_start_index * kOutputQueueItemSize ≤ i * kOutputQueueItemSize + j ∧
      i * kOutputQueueItemSize + j <
        q.queue_start_index * kOutputQueueItemSize + kOutputQueueItemSize) := by
    rw [show kOutputQueueItemSize = 256 from rfl] at *
    omega
  simp only [OutputQueue.write, strncpy]
  rw [if_neg hout]
  exact h j hj

theorem bumpIndex_eq {i : Nat} (h : i < kOutputQueueSize) :
    bumpIndex i = (i + 1) % kOutputQueueSize := wrap_eq h

/-- With two free slots, a write adds the newest item. -/
theorem Items.write {q : OutputQueue} {texts : List CString} (h : q.Items texts)
    (hroom : texts.length + 1 < kOutputQueueSize) (text : CString) :
    (q.write (some text)).Items (texts ++ [text]) := by
  have hpush : ring.Holds kOutputQueueSize (q.write (some text)).SlotHolds q.queue_end_index
      ((q.queue_start_index + 1) % kOutputQueueSize) (texts ++ [text]) :=
    h.push hroom (slotHolds_write q text) fun i _ hi c hc => hc.write hi text
  rw [← bumpIndex_eq h.next_lt] at hpush
  exact hpush

/-- `Pop` gives the slot of the oldest item, and the other items stay. -/
theorem Items.pop {q : OutputQueue} {text : CString} {texts : List CString}
    (h : q.Items (text :: texts)) :
    q.pop.1 = some (q.queue_end_index * kOutputQueueItemSize) ∧
      q.SlotHolds q.queue_end_index text ∧ q.pop.2.Items texts := by
  have hsome : q.getItemTot ≠ 0 := by simp [h.getItemTot_eq_zero]
  obtain ⟨hslot, hrest⟩ := ring.Holds.pop h
  rw [← bumpIndex_eq h.first_lt] at hrest
  rw [OutputQueue.pop, if_pos hsome]
  exact ⟨rfl, hslot, hrest⟩

theorem Items.pop_nil {q : OutputQueue} (h : q.Items []) : q.pop = (none, q) := by
  have hzero : q.getItemTot = 0 := h.getItemTot_eq_zero.mpr rfl
  simp [OutputQueue.pop, hzero]

/-- A text that ends in its slot is read back. -/
theorem cStringAt_of_text {memory : Nat → UInt8} {text : Text} (hnul : (0 : UInt8) ∉ text)
    {n loc : Nat} (hn : text.length < n)
    (h : ∀ j ≤ text.length, memory (loc + j) = text.getD j 0) :
    cStringAt memory n loc = some text := by
  induction text generalizing n loc with
  | nil =>
    obtain ⟨n, rfl⟩ := Nat.exists_eq_add_one_of_ne_zero (by omega : n ≠ 0)
    have h0 := h 0 le_rfl
    simp only [Nat.add_zero, List.getD_nil] at h0
    simp [cStringAt, h0]
  | cons c text ih =>
    obtain ⟨n, rfl⟩ := Nat.exists_eq_add_one_of_ne_zero (by omega : n ≠ 0)
    have h0 := h 0 (Nat.zero_le _)
    simp only [Nat.add_zero, List.getD_cons_zero] at h0
    have hc : c ≠ 0 := by
      rintro rfl
      simp at hnul
    have hrest : cStringAt memory n (loc + 1) = some text := by
      refine ih (fun h0 => hnul (List.mem_cons_of_mem _ h0)) (by simpa using hn) fun j hj => ?_
      have hj1 := h (j + 1) (by simpa using hj)
      rwa [List.getD_cons_succ, Nat.add_comm j 1, ← Nat.add_assoc] at hj1
    simp [cStringAt, h0, hc, hrest]

/-- What is printed from a slot is the text, if the text leaves room for its NUL. -/
theorem SlotHolds.printed {q : OutputQueue} {i : Nat} {text : CString} (h : q.SlotHolds i text)
    (hi : i < kOutputQueueSize) (hfit : FitsSlot text) :
    q.printed (i * kOutputQueueItemSize) = some text.bytes := by
  simp only [FitsSlot, kOutputQueueSize, kOutputQueueItemSize] at hi hfit
  refine cStringAt_of_text text.no_nul ?_ fun j hj => h j ?_
  · simp only [kOutputQueueSize, kOutputQueueItemSize]
    omega
  · simp only [kOutputQueueItemSize]
    omega

end OutputQueue

end anagram
