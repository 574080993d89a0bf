-- The inexact lookup of ternary_tree.cc: from the longest stem of a text that
-- leads to a node, extrapolate the words that go on from there, and key each
-- by its Levenshtein distance and a count that breaks ties.
import Anagram.TernaryTree

namespace anagram

/-- What a `const char *` function sees of a text: the bytes before the first NUL. -/
def cString (s : Text) : Text := s.takeWhile fun c => c ≠ 0

/-! ## CalcLevenshtein -/

/-- The macro `MIN3`. -/
def min3 (a b c : Nat) : Nat := if a < b then (if a < c then a else c) else if b < c then b else c

/-- `for (y = 1; y <= len1; y++) column[ y ] = y;` -/
def initLoop (column : Nat → Nat) : Nat → Nat → Nat
  | 0 => column
  | y + 1 => Function.update (initLoop column y) (y + 1) (y + 1)

/-- The loop over `y`, on the characters of `s1` from `y` on. -/
def rowLoop (c2 : UInt8) : Text → Nat → (Nat → Nat) → Nat → Nat → Nat
  | [], _, column, _ => column
  | c1 :: s1, y, column, lastdiag =>
    let olddiag := column y
    let column := Function.update column y
      (min3 (column y + 1) (column (y - 1) + 1) (lastdiag + if c1 = c2 then 0 else 1))
    rowLoop c2 s1 (y + 1) column olddiag

/-- The loop over `x`, on the characters of `s2` from `x` on. -/
def columnLoop (s1 : Text) : Text → Nat → (Nat → Nat) → Nat → Nat
  | [], _, column => column
  | c2 :: s2, x, column =>
    columnLoop s1 s2 (x + 1) (rowLoop c2 s1 1 (Function.update column 0 x) (x - 1))

/-- `CalcLevenshtein` of two C strings. `column` is what the memory of the array holds before. The
array is on the stack, and so is a call of `Extrapolate` for each letter of the stored word, so no
length comes near 2 ^ 31, where the unsigned integers would not fit the score any more. -/
def calcLevenshtein (column : Nat → Nat) (s1 s2 : Text) : Int :=
  columnLoop s1 s2 1 (initLoop column s1.length) s1.length

/-! ## Extrapolate -/

/-- The maps that a lookup fills, the accumulator, and the high watermark of the ties. -/
structure Extrapolation where
  words : Std.TreeMap Int Text
  tie_breaker_lookup : Std.TreeMap Int Int
  accum : Text
  tie_hwm_ : Int

/-- `tie_breaker + (score << 12)`, in an `int`. -/
def tieKey (tie_breaker score : Int) : Int := (tie_breaker + score * 4096).bmod (2 ^ 32)

/-- The loop that pushes the keys from `pCur` up to the root in front of the accumulator. A path
with more nodes than the heap goes round in a circle. -/
def climb (t : Trie) (root : Nat) : Nat → Option Nat → Text → Run Text
  | 0, _, _ => .error .out_of_fuel
  | _ + 1, none, accum => .ok accum
  | fuel + 1, some pCur, accum =>
    if pCur = root then .ok accum
    else do
      let n ← t.node pCur
      climb t root fuel n.parent_ (n.key_ :: accum)

/-- Counts a word with this score, and gives its tie breaker. -/
def breakTie (score : Int) (s : Extrapolation) : Int × Extrapolation :=
  match s.tie_breaker_lookup[score]? with
  | none => (0, { s with tie_breaker_lookup := s.tie_breaker_lookup.insert score 0 })
  | some ties =>
    let tie_breaker := ties + 1
    (tie_breaker, { s with
      tie_breaker_lookup := s.tie_breaker_lookup.insert score tie_breaker
      tie_hwm_ := if tie_breaker > s.tie_hwm_ then tie_breaker else s.tie_hwm_ })

/-- The end of a full word, when the accumulator holds what follows the stem. Gives `none` where
the call unwinds, for the distance exceeds the threshold. `columns` is the memory of the array in
the calls of `CalcLevenshtein`. -/
def commit (columns : Text → Nat → Nat) (stem word : Text) (max_diff : Int) (s : Extrapolation) :
    Bool × Extrapolation :=
  let compound := stem ++ s.accum
  let score := calcLevenshtein (columns compound) word (cString compound)
  if max_diff ≠ 0 ∧ score > max_diff then (false, { s with accum := [] })
  else
    let (tie_breaker, s) := breakTie score s
    (true, { s with words := s.words.insert (tieKey tie_breaker score) compound, accum := [] })

/-- The block for a node that ends a full word. -/
def endOfWord (t : Trie) (columns : Text → Nat → Nat) (root : Nat) (stem word : Text)
    (max_diff : Int) (node : Nat) (n : TNode) (s : Extrapolation) : Run (Bool × Extrapolation) :=
  if n.terminator_ then do
    let accum ← climb t root (t.heap.length + 1) (some node) s.accum
    .ok (commit columns stem word max_diff { s with accum := accum })
  else .ok (true, s)

/-- `Extrapolate`, where the call on a null child is the one that returns at once. Its result,
which only its own recursion reads, is left out. -/
def extrapolate (t : Trie) (columns : Text → Nat → Nat) (root : Nat) (stem word : Text)
    (max_diff : Int) : Nat → Option Nat → Extrapolation → Run Extrapolation
  | 0, _, _ => .error .out_of_fuel
  | _ + 1, none, s => .ok s
  | fuel + 1, some node, s => do
    let n ← t.node node
    let (go, s) ← endOfWord t columns root stem word max_diff node n s
    if go then do
      let s ← extrapolate t columns root stem word max_diff fuel n.l_ s
      let s ← extrapolate t columns root stem word max_diff fuel n.c_ s
      extrapolate t columns root stem word max_diff fuel n.r_ s
    else .ok s

/-- `ExtrapolateAll`, from a node, with an empty accumulator. -/
def extrapolateAll (t : Trie) (columns : Text → Nat → Nat) (max_diff_ : Int) (fuel node : Nat)
    (words : Std.TreeMap Int Text) (stem word : Text) : Run Extrapolation := do
  let n ← t.node node
  extrapolate t columns node stem word max_diff_ fuel n.c_ ⟨words, ∅, [], 0⟩

/-! ## FuzzyFind -/

/-- The loop over ever shorter texts. Gives whether the text was found, the node that it led
to, and what is left of it. -/
def stemLoop (t : Trie) (fuel : Nat) (pParent : Option Nat) (word : Text) :
    Nat → Run (Bool × Option Nat × Text)
  | 0 => .ok (false, none, [])
  | n + 1 => do
    let search_word := word.take (n + 1)
    let (found, node) ← t.find fuel (c_str search_word) pParent
    if found then .ok (true, node, search_word)
    else if node.isSome then .ok (false, node, search_word)
    else stemLoop t fuel pParent word n

/-- `FuzzyFind`, which adds to the map. -/
def fuzzyFind (t : Trie) (columns : Text → Nat → Nat) (max_diff_ : Int) (fuel : Nat) (word : Text)
    (pParent : Option Nat) (words : Std.TreeMap Int Text) : Run (Std.TreeMap Int Text) := do
  let (found, node, search_word) ← stemLoop t fuel pParent word word.length
  let words := if found then words.insert 0 search_word else words
  match node with
  | none => .ok words
  | some node => do
    let s ← extrapolateAll t columns max_diff_ fuel node words search_word word
    .ok s.words

end anagram
