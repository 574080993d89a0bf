-- The accesses of the occupancy hash to its tables, in their order, up to the one
-- that fails. A char becomes an index by way of size_t, so a negative one is far
-- past every table, and the list of the characters has kMaxCharsPerWord places.
import Anagram.HashLaws
import Anagram.General.Traced

open outcome traced

namespace anagram

/-- `(size_t) c` for a plain `char`: a negative value wraps round. -/
def sizeOfChar (c : UInt8) : Nat := (schar c % 2 ^ 64).toNat

/-- An access of `GetCharCountMap` or `+=`: to the cells of a character in `char_count_` and
`index_index_`, or the write of a new entry of `occupancy_index_`. -/
inductive TableAccess
  | cell (index : Nat)
  | entry (place : Nat)
deriving DecidableEq

abbrev InAccesses (α : Type) := Traced TableAccess Fault α

namespace OccupancyHash

/-- `bump`, with its write to the list. -/
def bumpInAccesses (h : OccupancyHash) (char_index : UInt8) (count : Int8) :
    InAccesses OccupancyHash :=
  if h.char_count char_index = 0 then note (.entry h.index_ptr) (h.occupy char_index count)
  else quiet (h.bump char_index count)

/-- `getCharCountMap`, access by access. -/
def getCharCountMapInAccesses (h : OccupancyHash) : Text → InAccesses OccupancyHash
  | [] => pure h
  | c :: word =>
    if c = 0 then pure h
    else if c = 0x20 then h.getCharCountMapInAccesses word
    else do
      let char_index ← note (.cell (sizeOfChar c)) (cell c)
      let h ← h.bumpInAccesses char_index 1
      h.getCharCountMapInAccesses word

/-- `addLoop`, access by access. -/
def addLoopInAccesses (h b : OccupancyHash) : Nat → InAccesses OccupancyHash
  | 0 => pure h
  | b_index + 1 => do
    let char_index ← note (.cell (sizeOfChar (b.occupancy_index b_index))) (b.occupied b_index)
    let h ← h.bumpInAccesses char_index (b.char_count char_index)
    addLoopInAccesses h b b_index

/-- `addAssign`, access by access. -/
def addAssignInAccesses (h b : OccupancyHash) : InAccesses OccupancyHash :=
  h.addLoopInAccesses b b.index_ptr

/-! ## Without the accesses -/

@[simp] theorem result_bumpInAccesses (h : OccupancyHash) (c : UInt8) (n : Int8) :
    (h.bumpInAccesses c n).result = h.bump c n := by
  unfold bumpInAccesses
  split_ifs with hzero
  · rw [result_note, bump, if_pos hzero]
  · rfl

@[simp] theorem result_getCharCountMapInAccesses (h : OccupancyHash) (word : Text) :
    (h.getCharCountMapInAccesses word).result = h.getCharCountMap word := by
  induction word generalizing h with
  | nil => rfl
  | cons c word ih =>
    unfold getCharCountMapInAccesses getCharCountMap
    split_ifs
    · rfl
    · exact ih h
    · simp only [result_bind, result_note, result_bumpInAccesses, ih]

theorem result_addLoopInAccesses (h b : OccupancyHash) (k : Nat) :
    (h.addLoopInAccesses b k).result = h.addLoop b k := by
  induction k generalizing h with
  | zero => rfl
  | succ k ih =>
    unfold addLoopInAccesses addLoop
    simp only [result_bind, result_note, result_bumpInAccesses, ih]

@[simp] theorem result_addAssignInAccesses (h b : OccupancyHash) :
    (h.addAssignInAccesses b).result = h.addAssign b := result_addLoopInAccesses h b _

/-! ## Which accesses are inside -/

/-- Exactly the chars that are not negative lead to a cell of the tables. -/
theorem sizeOfChar_lt_iff (c : UInt8) : sizeOfChar c < 256 ↔ c < 128 := by
  revert c
  decide +kernel

end OccupancyHash

end anagram
