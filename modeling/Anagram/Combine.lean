-- The combination search (main.cc): from a word of the subset, extend the
-- phrase word by word while its letters still fit in the master phrase, and
-- emit it when they are exactly those of the master.
import Anagram.OccupancyHash

namespace anagram

/-- The flags that the search and the gather phase read. -/
structure AnagramFlags where
  allow_dupes : Bool
  output_directly : Bool
  print_subset : Bool
deriving DecidableEq

/-- A write that can be seen from outside: to the map of the anagrams, or to the queue. -/
inductive Effect
  | write (key : Text)
  | push (text : Text)
deriving DecidableEq

/-- What all threads share: the map of the anagrams, the throttle of the progress messages, and
the effects so far, oldest first. A map forgets a second write of a key, and the effects do not. -/
structure World where
  anagrams : StringMap
  output_queue_throttle : Int
  effects : List Effect

def kOutputQueueThrottleFrequency : Int := 100

/-- Before the first anagram. -/
def World.start : World := ⟨∅, kOutputQueueThrottleFrequency, []⟩

/-- A subset with the given keys. -/
def subsetOf (keys : List Text) : StringMap := .ofList (keys.map fun key => (key, (1 : Int)))

/-- `queue->Push(text)`, as its caller sees it. -/
def World.push (w : World) (text : Text) : World := { w with effects := w.effects ++ [.push text] }

/-- `anagrams[key] = 1`. -/
def World.write (w : World) (key : Text) : World :=
  { w with anagrams := w.anagrams.insert key 1, effects := w.effects ++ [.write key] }

/-- The progress message: `sprintf(out, "\rAnagrams found: %ld    ", size)`. -/
def foundMessage (size : Nat) : Text :=
  bytes "\rAnagrams found: " ++ bytes (toString size) ++ bytes "    "

/-- The branch of `CombineSubsetsRecurseFast` for a complete anagram. -/
def emit (flags : AnagramFlags) (output_phrase : Text) (w : World) : World :=
  if flags.output_directly then w.push (output_phrase ++ bytes "\n")
  else
    let w := w.write output_phrase
    if w.output_queue_throttle - 1 = 0 then
      ({ w with output_queue_throttle := kOutputQueueThrottleFrequency }).push
        (foundMessage w.anagrams.size)
    else { w with output_queue_throttle := w.output_queue_throttle - 1 }

/-- The hashes that one call of `CombineSubsetsFast` owns. Every level of the recursion uses
them through references. -/
structure Hashes where
  candidate_count_a : OccupancyHash
  candidate_count_b : OccupancyHash
  candidate_count_arr : List OccupancyHash

/-- What the reference `candidate_count_a` of one level is bound to: the hash of the first word,
or an entry of the array. -/
inductive HashRef
  | first
  | arr (depth : Nat)

def Hashes.deref (s : Hashes) : HashRef → Run OccupancyHash
  | .first => .ok s.candidate_count_a
  | .arr depth => match s.candidate_count_arr[depth]? with
    | some h => .ok h
    | none => .error .undefined

/-- The branch of `CombineSubsetsRecurseFast` for a phrase that is still a partial: count it in
the hash of this depth, and recurse. -/
def descend (recurse : Text → HashRef → List Text → Nat → Hashes × World → Run (Hashes × World))
    (output_phrase : Text) (i : List Text) (depth : Nat) (s : Hashes × World) :
    Run (Hashes × World) :=
  match s.1.candidate_count_arr[depth]? with
  | none => .error .undefined
  | some h => do
    let h ← h.clear
    let h ← h.getCharCountMap output_phrase
    recurse output_phrase (.arr depth) i (depth + 1)
      ({ s.1 with candidate_count_arr := s.1.candidate_count_arr.set depth h }, s.2)

/-- What follows from the comparison with the master. -/
def classify (flags : AnagramFlags)
    (recurse : Text → HashRef → List Text → Nat → Hashes × World → Run (Hashes × World))
    (word key : Text) (rest : List Text) (depth : Nat) (comparison_result : Int)
    (s : Hashes × World) : Run (Hashes × World) :=
  let output_phrase := word ++ bytes " " ++ key
  if comparison_result = 0 then .ok (s.1, emit flags output_phrase s.2)
  else if comparison_result < 0 then descend recurse output_phrase (key :: rest) depth s
  else .ok s

/-- The loop of `CombineSubsetsRecurseFast`. The iterator is the list of the keys from it on. -/
def combineLoop (flags : AnagramFlags) (master_count : OccupancyHash)
    (recurse : Text → HashRef → List Text → Nat → Hashes × World → Run (Hashes × World))
    (word : Text) (a : HashRef) (depth : Nat) :
    List Text → Hashes × World → Run (Hashes × World)
  | [], s => .ok s
  | key :: rest, s =>
    -- a word that is the whole phrase so far is passed over
    if !flags.allow_dupes && key == word then
      combineLoop flags master_count recurse word a depth rest s
    else do
      let b ← s.1.candidate_count_b.clear
      let b ← b.getCharCountMap key
      let candidate_count_a ← s.1.deref a
      let b ← b.addAssign candidate_count_a
      let comparison_result ← b.compare master_count
      let s ← classify flags recurse word key rest depth comparison_result
        ({ s.1 with candidate_count_b := b }, s.2)
      combineLoop flags master_count recurse word a depth rest s

/-- The fuel bounds the depth of the recursion. -/
def combineSubsetsRecurseFast (flags : AnagramFlags) (master_count : OccupancyHash) :
    Nat → Text → HashRef → List Text → Nat → Hashes × World → Run (Hashes × World)
  | 0, _, _, _, _, _ => .error .out_of_fuel
  | fuel + 1, word, a, start_i, depth, s =>
    combineLoop flags master_count (combineSubsetsRecurseFast flags master_count fuel)
      word a depth start_i s

/-- The outer loop of `CombineSubsetsFast`, for `n` turns at most. -/
def outerLoop (flags : AnagramFlags) (master_count : OccupancyHash) (word : Text)
    (fuel cpu_tot : Nat) : Nat → List Text → Hashes × World → Run (Hashes × World)
  | 0, _, _ => .error .out_of_fuel
  | _ + 1, [], s => .ok s
  | n + 1, key :: rest, s =>
    -- this `continue` does not advance the iterator
    if !flags.allow_dupes && key == word then
      outerLoop flags master_count word fuel cpu_tot n (key :: rest) s
    else do
      let a ← s.1.candidate_count_a.clear
      let a ← a.getCharCountMap key
      let s ← combineSubsetsRecurseFast flags master_count fuel key .first (key :: rest) 0
        ({ s.1 with candidate_count_a := a }, s.2)
      outerLoop flags master_count word fuel cpu_tot n ((key :: rest).drop cpu_tot) s

/-- `CombineSubsetsFast` with an array of `slots` hashes. -/
def combineWith (slots fuel cpu_tot : Nat) (flags : AnagramFlags) (word : Text)
    (subset : List Text) (thread_index : Int) (w : World) : Run World := do
  let master_count ← OccupancyHash.new.getCharCountMap word
  let hashes : Hashes :=
    ⟨OccupancyHash.new, OccupancyHash.new, List.replicate slots OccupancyHash.new⟩
  let s ← outerLoop flags master_count word fuel cpu_tot fuel
    (subset.drop thread_index.toNat) (hashes, w)
  .ok s.2

/-- `CombineSubsetsFast`, where `candidate_count_arr` has 64 entries. `cpu_tot` is a static of
the program, the number of threads of the job. -/
def combineSubsetsFast (fuel cpu_tot : Nat) (flags : AnagramFlags) (word : Text)
    (subset : StringMap) (thread_index : Int) (w : World) : Run World :=
  combineWith 64 fuel cpu_tot flags word subset.keys thread_index w

end anagram
