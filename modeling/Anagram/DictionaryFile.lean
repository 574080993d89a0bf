-- ReadDictionaryFile (main.cc): the words of a file, one a line, go into the
-- trie, first those from the middle of the file on and then those before. The
-- file stream has the two bits of its state that decide when a loop ends.
import Anagram.TernaryTree

namespace anagram

/-! ## The file stream -/

/-- A `std::ifstream` on a file that is there: its bytes, those from the get position on, and
two bits of its state. -/
structure Stream where
  content : Text
  rest : Text
  eofbit : Bool
  failbit : Bool

def Stream.opened (content : Text) : Stream := ⟨content, content, false, false⟩

def Stream.clear (s : Stream) : Stream := { s with eofbit := false, failbit := false }

/-- `seekg(0)`, also relative to `std::ios::beg`. It drops the end-of-file bit first, and does
not move on a stream that failed. -/
def Stream.seekg (s : Stream) : Stream :=
  if s.failbit then { s with eofbit := false }
  else { s with rest := s.content, eofbit := false }

/-- `getline(file, line)`: the stream after it, and what is in `line` then. A stream that is not
good fails at once. The end of the file ends a line too, and is a failure when nothing came
before it. -/
def Stream.getline (s : Stream) (line : Text) : Stream × Text :=
  if s.eofbit || s.failbit then ({ s with failbit := true }, line)
  else
    let extracted := s.rest.takeWhile (· ≠ 10)
    match s.rest.dropWhile (· ≠ 10) with
    | [] => ({ s with rest := [], eofbit := true, failbit := extracted.isEmpty }, extracted)
    | _ :: rest => ({ s with rest }, extracted)

/-- `GetWordCount`: the number of newlines, in an `int`. The iterators read to the end without
touching the state of the stream. -/
def getWordCount (file : Stream) : Int × Stream :=
  let lineTot := (file.rest.count 10 : Int).bmod (2 ^ 32)
  (lineTot, ({ file with rest := [] } : Stream).seekg)

/-! ## ReadDictionaryFile -/

/-- The loop that skips `n` lines. -/
def skipLoop : Nat → Stream × Text → Stream × Text
  | 0, s => s
  | n + 1, (file, line) => skipLoop n (file.getline line)

/-- A word of the second half. It is looked up in lower case first. -/
def insertNew (fuel : Nat) (trie : Trie) (line : Text) : Run Trie := do
  let lowerline := line.map tolower
  let (found, _) ← trie.find fuel (c_str lowerline) trie.root
  if found then .ok trie else Trie.insertWord fuel trie line

/-- The loop of the first phase, to the end of the file. -/
def phase1 (fuel : Nat) : Nat → Stream → Text → Trie → Run (Stream × Text × Trie)
  | 0, _, _, _ => .error .out_of_fuel
  | n + 1, file, line, trie =>
    let (file, line) := file.getline line
    if file.failbit then .ok (file, line, trie)
    else do
      let trie ← insertNew fuel trie line
      phase1 fuel n file line trie

/-- The loop of the second phase, over `n` lines. -/
def phase2 (fuel : Nat) : Nat → Stream → Text → Trie → Run Trie
  | 0, _, _, trie => .ok trie
  | n + 1, file, line, trie => do
    let (file, line) := file.getline line
    let trie ← Trie.insertWord fuel trie line
    phase2 fuel n file line trie

/-- The two phases, when the first one starts at line `start`. -/
def readPhases (fuel start : Nat) (file : Stream) (trie : Trie) : Run Trie := do
  let (file, line) := skipLoop start (file, [])
  let (file, line, trie) ← phase1 fuel fuel file line trie
  phase2 fuel start file.clear.seekg line trie

/-- `ReadDictionaryFile`, on the content of the file. -/
def readDictionaryFile (fuel : Nat) (content : Text) (trie : Trie) : Run Trie :=
  let (lineTot, file) := getWordCount (Stream.opened content)
  readPhases fuel (lineTot >>> (1 : Nat)).toNat file trie

end anagram
