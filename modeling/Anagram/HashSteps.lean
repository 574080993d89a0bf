-- What a run does with its hashes, step by step, up to the step that fails. The
-- functions here are those of the source with a record of each count, sum and
-- comparison, and of each access to the array of the hashes. Without the
-- record they are the same.
import Anagram.Gather
import Anagram.General.Traced

open outcome traced

namespace anagram

/-- A step on the hashes: a count of a text in a hash, the sum of two hashes, a comparison, or an
access to the array of the hashes. The texts say what the hashes have counted. -/
inductive HashStep
  | count (h : OccupancyHash) (text : Text)
  | add (h b : OccupancyHash) (left right : Text)
  | compare (a b : OccupancyHash) (left right : Text)
  | slot (depth : Nat)

abbrev InSteps (α : Type) := Traced HashStep Fault α

def countInSteps (h : OccupancyHash) (text : Text) : InSteps OccupancyHash :=
  note (.count h text) (h.getCharCountMap text)

def addInSteps (h b : OccupancyHash) (left right : Text) : InSteps OccupancyHash :=
  note (.add h b left right) (h.addAssign b)

def compareInSteps (a b : OccupancyHash) (left right : Text) : InSteps Int :=
  note (.compare a b left right) (a.compare b)

/-- `candidate_count_arr[depth]`. -/
def slotInSteps (candidate_count_arr : List OccupancyHash) (depth : Nat) :
    InSteps OccupancyHash :=
  note (.slot depth) (match candidate_count_arr[depth]? with
    | some h => .ok h
    | none => .error .undefined)

/-! ## The combination search -/

/-- `descend`, step by step. -/
def descendInSteps
    (recurse : Text → HashRef → List Text → Nat → Hashes × World → InSteps (Hashes × World))
    (output_phrase : Text) (i : List Text) (depth : Nat) (s : Hashes × World) :
    InSteps (Hashes × World) := do
  let h ← slotInSteps s.1.candidate_count_arr depth
  let h ← quiet h.clear
  let h ← countInSteps h output_phrase
  recurse output_phrase (.arr depth) i (depth + 1)
    ({ s.1 with candidate_count_arr := s.1.candidate_count_arr.set depth h }, s.2)

/-- `classify`, step by step. -/
def classifyInSteps (flags : AnagramFlags)
    (recurse : Text → HashRef → List Text → Nat → Hashes × World → InSteps (Hashes × World))
    (word key : Text) (rest : List Text) (depth : Nat) (comparison_result : Int)
    (s : Hashes × World) : InSteps (Hashes × World) :=
  let output_phrase := word ++ bytes " " ++ key
  if comparison_result = 0 then pure (s.1, emit flags output_phrase s.2)
  else if comparison_result < 0 then descendInSteps recurse output_phrase (key :: rest) depth s
  else pure s

/-- `combineLoop`, step by step. `master` is the text that `master_count` counts. -/
def combineLoopInSteps (flags : AnagramFlags) (master_count : OccupancyHash) (master : Text)
    (recurse : Text → HashRef → List Text → Nat → Hashes × World → InSteps (Hashes × World))
    (word : Text) (a : HashRef) (depth : Nat) :
    List Text → Hashes × World → InSteps (Hashes × World)
  | [], s => pure s
  | key :: rest, s =>
    if !flags.allow_dupes && key == word then
      combineLoopInSteps flags master_count master recurse word a depth rest s
    else do
      let b ← quiet s.1.candidate_count_b.clear
      let b ← countInSteps b key
      let candidate_count_a ← quiet (s.1.deref a)
      let b ← addInSteps b candidate_count_a key word
      let comparison_result ←
        compareInSteps b master_count (word ++ bytes " " ++ key) master
      let s ← classifyInSteps flags recurse word key rest depth comparison_result
        ({ s.1 with candidate_count_b := b }, s.2)
      combineLoopInSteps flags master_count master recurse word a depth rest s

/-- `combineSubsetsRecurseFast`, step by step. -/
def combineSubsetsRecurseFastInSteps (flags : AnagramFlags) (master_count : OccupancyHash)
    (master : Text) :
    Nat → Text → HashRef → List Text → Nat → Hashes × World → InSteps (Hashes × World)
  | 0, _, _, _, _, _ => quiet (.error .out_of_fuel)
  | fuel + 1, word, a, start_i, depth, s =>
    combineLoopInSteps flags master_count master
      (combineSubsetsRecurseFastInSteps flags master_count master fuel) word a depth start_i s

/-- `outerLoop`, step by step. -/
def outerLoopInSteps (flags : AnagramFlags) (master_count : OccupancyHash) (word : Text)
    (fuel cpu_tot : Nat) : Nat → List Text → Hashes × World → InSteps (Hashes × World)
  | 0, _, _ => quiet (.error .out_of_fuel)
  | _ + 1, [], s => pure s
  | n + 1, key :: rest, s =>
    if !flags.allow_dupes && key == word then
      outerLoopInSteps flags master_count word fuel cpu_tot n (key :: rest) s
    else do
      let a ← quiet s.1.candidate_count_a.clear
      let a ← countInSteps a key
      let s ← combineSubsetsRecurseFastInSteps flags master_count word fuel key .first
        (key :: rest) 0 ({ s.1 with candidate_count_a := a }, s.2)
      outerLoopInSteps flags master_count word fuel cpu_tot n ((key :: rest).drop cpu_tot) s

/-- `combineWith`, step by step. -/
def combineInSteps (slots fuel cpu_tot : Nat) (flags : AnagramFlags) (word : Text)
    (subset : List Text) (thread_index : Int) (w : World) : InSteps World := do
  let master_count ← countInSteps .new word
  let hashes : Hashes :=
    ⟨OccupancyHash.new, OccupancyHash.new, List.replicate slots OccupancyHash.new⟩
  let s ← outerLoopInSteps flags master_count word fuel cpu_tot fuel
    (subset.drop thread_index.toNat) (hashes, w)
  pure s.2

/-- `combineSubsetsFast`, step by step. -/
def combineSubsetsFastInSteps (fuel cpu_tot : Nat) (flags : AnagramFlags) (word : Text)
    (subset : StringMap) (thread_index : Int) (w : World) : InSteps World :=
  combineInSteps 64 fuel cpu_tot flags word subset.keys thread_index w

/-! ## The gather block -/

/-- `consider`, step by step. `phrase` is the text that `master_count` counts. -/
def considerInSteps (flags : AnagramFlags) (excludeset : StringMap)
    (master_count : OccupancyHash) (phrase : Text) (s : GatherState) (text : Text) :
    InSteps GatherState :=
  if excludeset.contains text then pure s
  else do
    let candidate := cString text
    let candidate_count ← quiet s.candidate_count.clear
    let candidate_count ← countInSteps candidate_count candidate
    let s := { s with candidate_count }
    let comparison_result ← compareInSteps candidate_count master_count candidate phrase
    if comparison_result = 0 then pure { s with world := addAnagram flags candidate s.world }
    else do
      let is_subset ← quiet (candidate_count.isSubset master_count)
      if is_subset then pure { s with subset := s.subset.insert candidate 1 } else pure s

section
variable (t : Trie) (columns : Text → Nat → Nat) (max_diff_ : Int) (fuel : Nat)
  (flags : AnagramFlags) (excludeset : StringMap)

/-- `gatherLetter`, step by step. -/
def gatherLetterInSteps (master_count : OccupancyHash) (phrase : Text) (s : GatherState)
    (c : UInt8) : InSteps GatherState :=
  if s.chars_completed c then pure s
  else do
    let s := { s with chars_completed := Function.update s.chars_completed c true }
    let extrapolation ← quiet (fuzzyFind t columns max_diff_ fuel (cString [c]) t.root ∅)
    extrapolation.toList.foldlM
      (fun s it => considerInSteps flags excludeset master_count phrase s it.2) s

/-- `gather`, step by step. -/
def gatherInSteps (master_count : OccupancyHash) (word : Text) (s : GatherState) :
    InSteps GatherState :=
  (c_str word).foldlM
    (gatherLetterInSteps t columns max_diff_ fuel flags excludeset master_count word) s

/-- `gatherBlock`, step by step. -/
def gatherBlockInSteps (prior : OccupancyHash) (word : Text) (chars_completed : UInt8 → Bool)
    (subset : StringMap) (w : World) : InSteps (StringMap × World) := do
  let master_count ← countInSteps prior word
  let s ← gatherInSteps t columns max_diff_ fuel flags excludeset master_count word
    ⟨chars_completed, OccupancyHash.new, subset, w⟩
  pure (s.subset, if flags.print_subset then printSubset s.subset s.world else s.world)

end

/-! ## Without the record -/

theorem result_slotInSteps (arr : List OccupancyHash) (depth : Nat) :
    (slotInSteps arr depth).result = match arr[depth]? with
      | some h => .ok h
      | none => .error .undefined := rfl

section
variable {recurse : Text → HashRef → List Text → Nat → Hashes × World → InSteps (Hashes × World)}
  {recurse' : Text → HashRef → List Text → Nat → Hashes × World → Run (Hashes × World)}
  (hrec : ∀ word a ks depth s, (recurse word a ks depth s).result = recurse' word a ks depth s)

include hrec

theorem result_descendInSteps (output_phrase : Text) (i : List Text) (depth : Nat)
    (s : Hashes × World) : (descendInSteps recurse output_phrase i depth s).result =
      descend recurse' output_phrase i depth s := by
  unfold descendInSteps descend
  rw [result_bind, result_slotInSteps]
  cases s.1.candidate_count_arr[depth]? with
  | none => rfl
  | some h => simp only [bind_ok, result_bind, result_quiet, countInSteps, result_note, hrec]

theorem result_classifyInSteps (flags : AnagramFlags) (word key : Text) (rest : List Text)
    (depth : Nat) (r : Int) (s : Hashes × World) :
    (classifyInSteps flags recurse word key rest depth r s).result =
      classify flags recurse' word key rest depth r s := by
  unfold classifyInSteps classify
  dsimp only
  split_ifs
  · rfl
  · exact result_descendInSteps hrec _ _ _ _
  · rfl

theorem result_combineLoopInSteps (flags : AnagramFlags) (master_count : OccupancyHash)
    (master word : Text) (a : HashRef) (depth : Nat) (ks : List Text) (s : Hashes × World) :
    (combineLoopInSteps flags master_count master recurse word a depth ks s).result =
      combineLoop flags master_count recurse' word a depth ks s := by
  induction ks generalizing s with
  | nil => rfl
  | cons key rest ih =>
    unfold combineLoopInSteps combineLoop
    split_ifs
    · exact ih s
    · simp only [result_bind, result_quiet, countInSteps, addInSteps, compareInSteps, result_note,
        result_classifyInSteps hrec, ih]

end

@[simp] theorem result_combineSubsetsRecurseFastInSteps (flags : AnagramFlags)
    (master_count : OccupancyHash) (master : Text) (fuel : Nat) (word : Text) (a : HashRef)
    (ks : List Text) (depth : Nat) (s : Hashes × World) :
    (combineSubsetsRecurseFastInSteps flags master_count master fuel word a ks depth s).result =
      combineSubsetsRecurseFast flags master_count fuel word a ks depth s := by
  induction fuel generalizing word a ks depth s with
  | zero => rfl
  | succ fuel ih => exact result_combineLoopInSteps ih flags master_count master word a depth ks s

theorem result_outerLoopInSteps (flags : AnagramFlags) (master_count : OccupancyHash)
    (word : Text) (fuel cpu_tot n : Nat) (ks : List Text) (s : Hashes × World) :
    (outerLoopInSteps flags master_count word fuel cpu_tot n ks s).result =
      outerLoop flags master_count word fuel cpu_tot n ks s := by
  induction n generalizing ks s with
  | zero => rfl
  | succ n ih =>
    cases ks with
    | nil => rfl
    | cons key rest =>
      unfold outerLoopInSteps outerLoop
      split_ifs
      · exact ih _ _
      · simp only [result_bind, result_quiet, countInSteps, result_note,
          result_combineSubsetsRecurseFastInSteps, ih]

/-- The record of a combination changes nothing. -/
theorem result_combineInSteps (slots fuel cpu_tot : Nat) (flags : AnagramFlags) (word : Text)
    (subset : List Text) (thread_index : Int) (w : World) :
    (combineInSteps slots fuel cpu_tot flags word subset thread_index w).result =
      combineWith slots fuel cpu_tot flags word subset thread_index w := by
  unfold combineInSteps combineWith
  simp only [result_bind, countInSteps, result_note, result_outerLoopInSteps, result_pure]

theorem result_considerInSteps (flags : AnagramFlags) (excludeset : StringMap)
    (master_count : OccupancyHash) (phrase : Text) (s : GatherState) (text : Text) :
    (considerInSteps flags excludeset master_count phrase s text).result =
      consider flags excludeset master_count s text := by
  unfold considerInSteps consider
  split_ifs
  · rfl
  · simp only [result_bind, result_quiet, countInSteps, compareInSteps, result_note]
    refine bind_congr fun cleared => bind_congr fun candidate_count =>
      bind_congr fun comparison_result => ?_
    split_ifs
    · rfl
    · rw [result_bind, result_quiet]
      refine bind_congr fun is_subset => ?_
      split_ifs <;> rfl

theorem result_gatherLetterInSteps (t : Trie) (columns : Text → Nat → Nat) (max_diff_ : Int)
    (fuel : Nat) (flags : AnagramFlags) (excludeset : StringMap) (master_count : OccupancyHash)
    (phrase : Text) (s : GatherState) (c : UInt8) :
    (gatherLetterInSteps t columns max_diff_ fuel flags excludeset master_count phrase s c).result =
      gatherLetter t columns max_diff_ fuel flags excludeset master_count s c := by
  unfold gatherLetterInSteps gatherLetter
  split_ifs
  · rfl
  · simp only [result_bind, result_quiet, result_foldlM, result_considerInSteps]

/-- The record of a gather block changes nothing. -/
theorem result_gatherBlockInSteps (t : Trie) (columns : Text → Nat → Nat) (max_diff_ : Int)
    (fuel : Nat) (flags : AnagramFlags) (excludeset : StringMap) (prior : OccupancyHash)
    (word : Text) (chars_completed : UInt8 → Bool) (subset : StringMap) (w : World) :
    (gatherBlockInSteps t columns max_diff_ fuel flags excludeset prior word chars_completed subset
        w).result =
      gatherBlock t columns max_diff_ fuel flags excludeset prior word chars_completed subset
        w := by
  unfold gatherBlockInSteps gatherBlock gatherInSteps gather
  simp only [result_bind, countInSteps, result_note, result_foldlM, result_gatherLetterInSteps,
    result_pure]
  rfl

end anagram
