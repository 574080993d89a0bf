-- The occupancy hash: a sparse table of the counts of the characters of a
-- phrase (occupancy_hash.h). Three tables depend on each other: the counts,
-- the list of the characters that have a count, and the place of each of
-- them in that list.
import Anagram.Machine

namespace anagram

def kMaxCharsPerWord : Nat := 40

/-- The members of the class. `occupancy_index` has `kMaxCharsPerWord` cells, and each access
to it below checks this bound. The other two tables have one cell for each byte. -/
structure OccupancyHash where
  occupancy_index : Nat → UInt8
  index_index : UInt8 → Int8
  char_count : UInt8 → Int8
  index_ptr : Nat

namespace OccupancyHash

/-- The default constructor clears all four members. -/
def new : OccupancyHash where
  occupancy_index := fun _ => 0
  index_index := fun _ => 0
  char_count := fun _ => 0
  index_ptr := 0

/-- `(size_t) occupancy_index_[i]`, read to index one of the other tables. -/
def occupied (h : OccupancyHash) (i : Nat) : Run UInt8 :=
  if i < kMaxCharsPerWord then cell (h.occupancy_index i) else .error .undefined

/-- The writes for a character that is new to the hash, in `AddChar`, `GetCharCountMap` and
`+=`. -/
def occupy (h : OccupancyHash) (char_index : UInt8) (count : Int8) : Run OccupancyHash :=
  if h.index_ptr < kMaxCharsPerWord then
    .ok { occupancy_index := Function.update h.occupancy_index h.index_ptr char_index
          index_index := Function.update h.index_index char_index (Int8.ofNat h.index_ptr)
          char_count := Function.update h.char_count char_index count
          index_ptr := h.index_ptr + 1 }
  else .error .undefined

/-- The loop of `clear`, from the entry below `i` down to the first. -/
def clearLoop (h : OccupancyHash) : Nat → Run OccupancyHash
  | 0 => .ok { h with index_ptr := 0 }
  | i + 1 => do
    let c ← h.occupied i
    clearLoop
      { occupancy_index := Function.update h.occupancy_index i 0
        index_index := Function.update h.index_index c 0
        char_count := Function.update h.char_count c 0
        index_ptr := i } i

def clear (h : OccupancyHash) : Run OccupancyHash := h.clearLoop h.index_ptr

/-- `(size_t) index_index_[index]`: a negative place wraps round. -/
def sizeOfPlace (place : Int8) : Nat := (place.toInt % 2 ^ 64).toNat

/-- `AddChar`. A place of 0 means that the character is new, and it is also the place of the
first entry. -/
def addChar (h : OccupancyHash) (char_index : UInt8) : Run OccupancyHash := do
  let index ← cell char_index
  let count := h.char_count index + 1
  let index_index := sizeOfPlace (h.index_index index)
  if index_index ≠ 0 then
    -- the increment is to the entry, which is a character and not a count
    if index_index < kMaxCharsPerWord then
      .ok { h with
        occupancy_index := Function.update h.occupancy_index index_index
          (h.occupancy_index index_index + 1)
        char_count := Function.update h.char_count index count }
    else .error .undefined
  else h.occupy index count

/-- The turn of the loops of `GetCharCountMap`, where `count` is 1, and of `+=`, where it is the
count of the other hash. -/
def bump (h : OccupancyHash) (char_index : UInt8) (count : Int8) : Run OccupancyHash :=
  if h.char_count char_index = 0 then h.occupy char_index count
  else .ok { h with
    char_count := Function.update h.char_count char_index (h.char_count char_index + count) }

def getCharCountMap (h : OccupancyHash) : Text → Run OccupancyHash
  | [] => .ok h
  | c :: word =>
    if c = 0 then .ok h
    else if c = 0x20 then h.getCharCountMap word
    else do
      let char_index ← cell c
      let h ← h.bump char_index 1
      h.getCharCountMap word

/-- The constructor from a word. `OccupancyHash();` in its body builds and drops a temporary,
so it counts the word on top of the members as the storage had them. -/
def ofWord (prior : OccupancyHash) (word : Text) : Run OccupancyHash :=
  prior.getCharCountMap word

/-- The loop of `+=`, from the entry of `b` below `b_index` down to the first. -/
def addLoop (h b : OccupancyHash) : Nat → Run OccupancyHash
  | 0 => .ok h
  | b_index + 1 => do
    let char_index ← b.occupied b_index
    let h ← h.bump char_index (b.char_count char_index)
    addLoop h b b_index

/-- `operator+=`. -/
def addAssign (h b : OccupancyHash) : Run OccupancyHash := h.addLoop b b.index_ptr

/-- The first loop of `Compare`, over the list of `a`. -/
def compareLoop (a b : OccupancyHash) : Nat → Int → Run Int
  | 0, result => .ok result
  | indexindex + 1, result => do
    let c ← a.occupied indexindex
    if b.char_count c < a.char_count c then .ok 1
    else if a.char_count c < b.char_count c then compareLoop a b indexindex (-1)
    else compareLoop a b indexindex result

/-- The second loop of `Compare`, over the list of `b`. -/
def compareRest (a b : OccupancyHash) : Nat → Run Int
  | 0 => .ok 0
  | indexindex + 1 => do
    let c ← b.occupied indexindex
    if a.char_count c < b.char_count c then .ok (-1)
    else compareRest a b indexindex

def compare (a b : OccupancyHash) : Run Int :=
  if b.index_ptr < a.index_ptr then .ok 1
  else do
    let result ← compareLoop a b a.index_ptr (if a.index_ptr < b.index_ptr then -1 else 0)
    if result = 0 then compareRest a b b.index_ptr else .ok result

def isSubsetLoop (a b : OccupancyHash) : Nat → Run Bool
  | 0 => .ok true
  | indexindex + 1 => do
    let c ← a.occupied indexindex
    if b.char_count c < a.char_count c then .ok false else isSubsetLoop a b indexindex

def isSubset (a b : OccupancyHash) : Run Bool := isSubsetLoop a b a.index_ptr

end OccupancyHash

end anagram
