-- GetAnagrams (main.cc): the first thread gathers the candidates letter by
-- letter, as anagrams or as words of the subset. Then every thread combines
-- the words of the subset.
import Anagram.Combine
import Anagram.FuzzyFind

namespace anagram

/-- What the gather block changes: the letters done, the hash that it reuses, the subset, and
what all threads share. -/
structure GatherState where
  chars_completed : UInt8 → Bool
  candidate_count : OccupancyHash
  subset : StringMap
  world : World

/-- The block for a candidate whose characters are those of the master. -/
def addAnagram (flags : AnagramFlags) (candidate : Text) (w : World) : World :=
  if w.anagrams.contains candidate then w
  else if flags.output_directly then w.push (candidate ++ bytes "\n")
  else
    let w := w.write candidate
    w.push (foundMessage w.anagrams.size)

/-- One turn of the loop over the extrapolated words. -/
def consider (flags : AnagramFlags) (excludeset : StringMap) (master_count : OccupancyHash)
    (s : GatherState) (text : Text) : Run GatherState :=
  if excludeset.contains text then .ok s
  else do
    let candidate := cString text
    let candidate_count ← s.candidate_count.clear
    let candidate_count ← candidate_count.getCharCountMap candidate
    let s := { s with candidate_count }
    let comparison_result ← candidate_count.compare master_count
    if comparison_result = 0 then .ok { s with world := addAnagram flags candidate s.world }
    else if ← candidate_count.isSubset master_count then
      .ok { s with subset := s.subset.insert candidate 1 }
    else .ok s

section
variable (t : Trie) (columns : Text → Nat → Nat) (max_diff_ : Int) (fuel : Nat)
  (flags : AnagramFlags) (excludeset : StringMap)

/-- One turn of the loop over the characters of the phrase. -/
def gatherLetter (master_count : OccupancyHash) (s : GatherState) (c : UInt8) :
    Run GatherState :=
  if s.chars_completed c then .ok s
  else do
    let s := { s with chars_completed := Function.update s.chars_completed c true }
    let extrapolation ← fuzzyFind t columns max_diff_ fuel (cString [c]) t.root ∅
    extrapolation.toList.foldlM (fun s it => consider flags excludeset master_count s it.2) s

/-- The gather block, between the constructor of `master_count` and the output of the subset. The
loop over `i <= word_len` takes the terminating NUL too. -/
def gather (master_count : OccupancyHash) (word : Text) (s : GatherState) : Run GatherState :=
  (c_str word).foldlM (gatherLetter t columns max_diff_ fuel flags excludeset master_count) s

end

/-- The loop of `PrintSubset`, on the keys that are left. -/
def printLoop : List Text → Nat → Text → World → Text × World
  | [], _, out, w => (out, w)
  | key :: keys, column_count, out, w =>
    let out := out ++ key
    if column_count - 1 = 0 then printLoop keys 8 [] (w.push (out ++ bytes "\n"))
    else printLoop keys (column_count - 1) (out ++ bytes ",") w

/-- `PrintSubset`. The queue is there. -/
def printSubset (subset : StringMap) (w : World) : World :=
  let (out, w) := printLoop subset.keys 8 [] w
  w.push (out ++ bytes "\n\n")

/-- The block that thread 0 runs under the gather lock. `prior` is what the memory of
`master_count` holds before its constructor. -/
def gatherBlock (t : Trie) (columns : Text → Nat → Nat) (max_diff_ : Int) (fuel : Nat)
    (flags : AnagramFlags) (excludeset : StringMap) (prior : OccupancyHash) (word : Text)
    (chars_completed : UInt8 → Bool) (subset : StringMap) (w : World) :
    Run (StringMap × World) := do
  let master_count ← OccupancyHash.ofWord prior word
  let s ← gather t columns max_diff_ fuel flags excludeset master_count word
    ⟨chars_completed, OccupancyHash.new, subset, w⟩
  .ok (s.subset, if flags.print_subset then printSubset s.subset s.world else s.world)

/-- `GetAnagrams`. The other threads read the subset that thread 0 has gathered. -/
def getAnagrams (t : Trie) (columns : Text → Nat → Nat) (max_diff_ : Int) (fuel cpu_tot : Nat)
    (flags : AnagramFlags) (excludeset : StringMap) (prior : OccupancyHash) (word : Text)
    (thread_index : Int) (chars_completed : UInt8 → Bool) (subset : StringMap) (w : World) :
    Run (StringMap × World) := do
  let (subset, w) ←
    if thread_index = 0 then
      gatherBlock t columns max_diff_ fuel flags excludeset prior word chars_completed subset w
    else Except.ok (subset, w)
  let w ← combineSubsetsFast fuel cpu_tot flags word subset thread_index w
  .ok (subset, w)

end anagram
