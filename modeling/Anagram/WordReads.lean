-- The bytes of the word that `Insert` and `Find` read. Both look one byte past
-- the letter that they are at, to see if it is the last one. So they stay
-- inside a word that has a letter, and the empty word has none.
import Anagram.TrieBytes
import Anagram.General.Traced

open search_trie outcome traced

namespace anagram

/-! ## The calls with their reads -/

/-- A computation with the positions that it reads. -/
abbrev Reading (α : Type) := Traced Nat Fault α

/-- `word[i]`, for a pointer to the byte `pos` of the word. -/
def readAt (pos : Nat) (word : List UInt8) (i : Nat) : Reading UInt8 :=
  note (pos + i) (charAt word i)

/-- `insertAt`, with its reads. -/
def insertAtReading (insert : Nat → List UInt8 → Slot → Trie → Reading (Nat × Trie)) (pos : Nat)
    (word : List UInt8) (c : UInt8) (slot : Slot) (t : Trie) : Reading Trie := do
  let a ← quiet (t.deref slot)
  let n ← quiet (t.node a)
  if tolowerChar c < n.key_.toNat then
    let r ← insert pos word (.left a) t
    let n ← quiet (do r.2.node (← r.2.deref slot))
    quiet (r.2.setParent n.l_ n.parent_)
  else if tolowerChar c > n.key_.toNat then
    let r ← insert pos word (.right a) t
    let n ← quiet (do r.2.node (← r.2.deref slot))
    quiet (r.2.setParent n.r_ n.parent_)
  else if (← readAt pos word 1) ≠ 0 then
    let r ← insert (pos + 1) (word.drop 1) (.center a) t
    let b ← quiet (r.2.deref slot)
    quiet (r.2.setParent (some r.1) (some b))
  else quiet (.ok (t.modify a fun n => { n with terminator_ := true }))

/-- `Insert` with its reads, for a pointer to the byte `pos` of the word. -/
def insertReading : Nat → Nat → List UInt8 → Slot → Trie → Reading (Nat × Trie)
  | 0, _, _, _, _ => quiet (.error .out_of_fuel)
  | fuel + 1, pos, word, slot, t => do
    let c ← readAt pos word 0
    let t ← quiet (t.ensureNode c slot)
    let t ← insertAtReading (insertReading fuel) pos word c slot t
    let a ← quiet (t.deref slot)
    pure (a, t)

/-- `Find` with its reads, for a pointer to the byte `pos` of the word. -/
def findReading (t : Trie) : Nat → Nat → List UInt8 → Option Nat → Reading (Bool × Option Nat)
  | 0, _, _, _ => quiet (.error .out_of_fuel)
  | _ + 1, _, _, none => pure (false, none)
  | fuel + 1, pos, word, some a => do
    let n ← quiet (t.node a)
    let c ← readAt pos word 0
    if schar c < n.key_.toNat then findReading t fuel pos word n.l_
    else if schar c > n.key_.toNat then findReading t fuel pos word n.r_
    else if (← readAt pos word 1) = 0 then pure (n.terminator_, some a)
    else findReading t fuel (pos + 1) (word.drop 1) n.c_

theorem result_insertAtReading {insert : Nat → List UInt8 → Slot → Trie → Reading (Nat × Trie)}
    {insert' : List UInt8 → Slot → Trie → Run (Nat × Trie)}
    (hins : ∀ pos word slot t, (insert pos word slot t).result = insert' word slot t) (pos : Nat)
    (word : List UInt8) (c : UInt8) (slot : Slot) (t : Trie) :
    (insertAtReading insert pos word c slot t).result = Trie.insertAt insert' word c slot t := by
  unfold insertAtReading Trie.insertAt
  rw [result_bind, result_quiet]
  refine bind_congr fun a => ?_
  rw [result_bind, result_quiet]
  refine bind_congr fun n => ?_
  split_ifs
  · simp only [result_bind, result_quiet, hins, bind_assoc]
  · simp only [result_bind, result_quiet, hins, bind_assoc]
  · rw [result_bind, readAt, result_note]
    refine bind_congr fun d => ?_
    split_ifs
    · simp only [result_bind, result_quiet, hins]
    · rfl

/-- Without the reads, the call is `Insert`. -/
theorem result_insertReading (fuel pos : Nat) (word : List UInt8) (slot : Slot) (t : Trie) :
    (insertReading fuel pos word slot t).result = Trie.insert fuel word slot t := by
  induction fuel generalizing pos word slot t with
  | zero => rfl
  | succ fuel ih =>
    unfold insertReading Trie.insert
    simp only [result_bind, result_quiet, readAt, result_note, result_pure,
      result_insertAtReading ih]

/-- Without the reads, the call is `Find`. -/
theorem result_findReading (t : Trie) (fuel pos : Nat) (word : List UInt8) (p : Option Nat) :
    (findReading t fuel pos word p).result = t.find fuel word p := by
  induction fuel generalizing pos word p with
  | zero => rfl
  | succ fuel ih =>
    cases p with
    | none => rfl
    | some a =>
      unfold findReading Trie.find
      simp only [result_bind, result_quiet, readAt, result_note]
      refine bind_congr fun n => bind_congr fun c => ?_
      split_ifs
      · exact ih _ _ _
      · exact ih _ _ _
      · rw [result_bind, result_note]
        refine bind_congr fun d => ?_
        split_ifs
        · rfl
        · exact ih _ _ _

/-! ## A word with a letter -/

/-- The byte after a letter is the NUL, or the next letter of the word. -/
theorem charAt_next {c e : UInt8} {rest tail : List UInt8}
    (h : charAt (c :: rest ++ 0 :: tail) 1 = .ok e) (he : e ≠ 0) :
    ∃ more, rest = e :: more := by
  cases rest with
  | nil =>
    cases h
    exact absurd rfl he
  | cons d more =>
    cases h
    exact ⟨more, rfl⟩

theorem insertReading_inside (fuel pos : Nat) (c : UInt8) (rest tail : List UInt8) (slot : Slot)
    (t : Trie) : ∀ i ∈ (insertReading fuel pos (c :: rest ++ 0 :: tail) slot t).steps,
      i ≤ pos + (c :: rest).length := by
  induction fuel generalizing pos c rest slot t with
  | zero => simp [insertReading]
  | succ fuel ih =>
    have hnext : pos + 1 ≤ pos + (c :: rest).length := by simp
    unfold insertReading
    rw [all_steps_bind, readAt, all_steps_note]
    refine ⟨by omega, fun c' _ => ?_⟩
    rw [all_steps_quiet_bind]
    intro t₁ _
    rw [all_steps_bind]
    refine ⟨?_, fun t₂ _ => by simp [all_steps_quiet_bind]⟩
    unfold insertAtReading
    rw [all_steps_quiet_bind]
    intro a _
    rw [all_steps_quiet_bind]
    intro n _
    split_ifs
    · rw [all_steps_bind]
      exact ⟨ih pos c rest _ _, fun r _ => by simp [all_steps_quiet_bind]⟩
    · rw [all_steps_bind]
      exact ⟨ih pos c rest _ _, fun r _ => by simp [all_steps_quiet_bind]⟩
    · rw [all_steps_bind, readAt, all_steps_note]
      refine ⟨hnext, fun e he => ?_⟩
      split_ifs with hzero
      · obtain ⟨more, rfl⟩ := charAt_next he hzero
        rw [all_steps_bind]
        refine ⟨fun i hi => ?_, fun r _ => by simp [all_steps_quiet_bind]⟩
        have hle := ih (pos + 1) e more _ _ i hi
        simp only [List.length_cons] at hle ⊢
        omega
      · simp

theorem findReading_inside (T : Trie) (fuel pos : Nat) (c : UInt8) (rest tail : List UInt8)
    (p : Option Nat) : ∀ i ∈ (findReading T fuel pos (c :: rest ++ 0 :: tail) p).steps,
      i ≤ pos + (c :: rest).length := by
  induction fuel generalizing pos c rest p with
  | zero => simp [findReading]
  | succ fuel ih =>
    have hnext : pos + 1 ≤ pos + (c :: rest).length := by simp
    cases p with
    | none => simp [findReading]
    | some a =>
      unfold findReading
      rw [all_steps_quiet_bind]
      intro n _
      rw [all_steps_bind, readAt, all_steps_note]
      refine ⟨by omega, fun c' _ => ?_⟩
      split_ifs
      · exact ih pos c rest _
      · exact ih pos c rest _
      · rw [all_steps_bind, readAt, all_steps_note]
        refine ⟨hnext, fun e he => ?_⟩
        split_ifs with hzero
        · simp
        · obtain ⟨more, rfl⟩ := charAt_next he hzero
          intro i hi
          have hle := ih (pos + 1) e more _ i hi
          simp only [List.length_cons] at hle ⊢
          omega

/-- What follows the NUL of a word with a letter makes no difference to `Insert`. -/
theorem insert_tail (fuel : Nat) (c : UInt8) (rest tail : List UInt8) (slot : Slot) (t : Trie) :
    Trie.insert fuel (c :: rest ++ 0 :: tail) slot t =
      Trie.insert fuel (c :: rest ++ [0]) slot t := by
  induction fuel generalizing c rest slot t with
  | zero => rfl
  | succ fuel ih =>
    unfold Trie.insert
    rw [charAt_head, charAt_head, bind_ok, bind_ok]
    refine bind_congr fun t₁ => ?_
    congr 1
    unfold Trie.insertAt
    refine bind_congr fun a => bind_congr fun n => ?_
    split_ifs
    · rw [ih]
    · rw [ih]
    · cases rest with
      | nil => rfl
      | cons e more =>
        rw [charAt_second, charAt_second, bind_ok, bind_ok]
        split_ifs
        · simp only [List.cons_append, List.drop_succ_cons, List.drop_zero]
          rw [← List.cons_append, ← List.cons_append, ih]
        · rfl

theorem find_tail (T : Trie) (fuel : Nat) (c : UInt8) (rest tail : List UInt8) (p : Option Nat) :
    T.find fuel (c :: rest ++ 0 :: tail) p = T.find fuel (c :: rest ++ [0]) p := by
  induction fuel generalizing c rest p with
  | zero => rfl
  | succ fuel ih =>
    cases p with
    | none => rfl
    | some a =>
      unfold Trie.find
      rw [charAt_head, charAt_head]
      refine bind_congr fun n => ?_
      rw [bind_ok, bind_ok]
      split_ifs
      · exact ih c rest _
      · exact ih c rest _
      · cases rest with
        | nil => rfl
        | cons e more =>
          rw [charAt_second, charAt_second, bind_ok, bind_ok]
          split_ifs
          · rfl
          · exact ih e more _

/-! ## The empty word -/

/-- The keys of the nodes that left links lead to, with that of the head. -/
def leftKeys : Tst UInt8 → List UInt8
  | .nil => []
  | .node _ key _ l _ _ => key :: leftKeys l

/-- The NUL itself as a char is no greater than any key. -/
theorem tolowerChar_zero : tolowerChar 0 = 0 := rfl

theorem schar_zero : schar 0 = 0 := rfl

/-- At a node with the key 0, `Insert` of the empty word reads the byte after the NUL. -/
theorem insertAt_empty_reads {insert : Nat → List UInt8 → Slot → Trie → Reading (Nat × Trie)}
    {T : Trie} {slot : Slot} {a : Nat} {n : TNode} (hslot : T.load slot = .ok (some a))
    (hnode : T.heap[a]? = some n) (hkey : n.key_ = 0) (pos : Nat) (tail : List UInt8) :
    pos + 1 ∈ (insertAtReading insert pos (0 :: tail) 0 slot T).steps := by
  unfold insertAtReading
  rw [deref_eq_ok hslot, quiet_ok_bind, Trie.node_eq_ok.mpr hnode, quiet_ok_bind, hkey,
    tolowerChar_zero, if_neg (by decide), if_neg (by decide), mem_steps_bind]
  exact Or.inl List.mem_cons_self

/-- `Insert` of the empty word goes to the left until it has a node with the key 0, an old or a
new one. -/
theorem insert_empty_reads {T : Trie} {slot : Slot} {parent : Option Nat} {t : Tst UInt8}
    (hrep : Rep T.heap parent t) (hload : T.load slot = .ok t.head) (pos : Nat)
    (tail : List UInt8) :
    ∃ fuel, pos + 1 ∈ (insertReading fuel pos (0 :: tail) slot T).steps := by
  have hfirst : charAt (0 :: tail) 0 = .ok 0 := rfl
  induction t generalizing slot parent with
  | nil =>
    obtain ⟨T₁, hensure, hslot, ⟨⟨upper, hnode⟩, -⟩, -⟩ := ensureNode_nil hload 0
    refine ⟨1, ?_⟩
    unfold insertReading readAt
    rw [hfirst, note_ok_bind, hensure, quiet_ok_bind, List.mem_cons, mem_steps_bind]
    exact Or.inr (Or.inl (insertAt_empty_reads hslot hnode rfl pos tail))
  | node a key terminator l c r ihl _ _ =>
    obtain ⟨⟨upper, hnode⟩, hl, -⟩ := hrep
    obtain ⟨fuel, hfuel⟩ := ihl hl (Trie.load_left hnode)
    refine ⟨fuel + 1, ?_⟩
    unfold insertReading readAt
    rw [hfirst, note_ok_bind, Trie.ensureNode_node hload, quiet_ok_bind, List.mem_cons,
      mem_steps_bind]
    refine Or.inr (Or.inl ?_)
    by_cases hkey : key = 0
    · exact insertAt_empty_reads hload hnode hkey pos tail
    · have hpos : tolowerChar 0 < key.toNat := by
        rw [tolowerChar_zero, Nat.cast_pos]
        exact UInt8.lt_iff_toNat_lt.mp (UInt8.pos_iff_ne_zero.mpr hkey)
      unfold insertAtReading
      rw [deref_eq_ok hload, quiet_ok_bind, Trie.node_eq_ok.mpr hnode, quiet_ok_bind, if_pos hpos,
        mem_steps_bind]
      exact Or.inl hfuel

/-- `Find` of the empty word goes to the left, and reads the byte after the NUL at a node with the
key 0. -/
theorem find_empty {T : Trie} {parent : Option Nat} {t : Tst UInt8} (hrep : Rep T.heap parent t)
    (pos : Nat) :
    (0 ∉ leftKeys t → ∀ fuel tail,
      (∀ i ∈ (findReading T fuel pos (0 :: tail) t.head).steps, i ≤ pos) ∧
      T.find fuel (0 :: tail) t.head = T.find fuel [0] t.head) ∧
    (0 ∈ leftKeys t → ∀ tail, ∃ fuel,
      pos + 1 ∈ (findReading T fuel pos (0 :: tail) t.head).steps) := by
  have hfirst : ∀ tail, charAt (0 :: tail) 0 = .ok 0 := fun tail => rfl
  induction t generalizing parent with
  | nil =>
    refine ⟨fun _ fuel tail => ?_, fun h => by cases h⟩
    cases fuel with
    | zero => exact ⟨by simp [findReading], rfl⟩
    | succ fuel => exact ⟨by simp [findReading], rfl⟩
  | node a key terminator l c r ihl _ _ =>
    obtain ⟨⟨upper, hnode⟩, hl, -⟩ := hrep
    obtain ⟨hinside, hpast⟩ := ihl hl
    rw [leftKeys, Tst.head_node, List.mem_cons, not_or]
    by_cases hkey : key = 0
    · refine ⟨fun h => absurd hkey.symm h.1, fun _ tail => ⟨1, ?_⟩⟩
      unfold findReading readAt
      rw [Trie.node_eq_ok.mpr hnode, quiet_ok_bind, hfirst, note_ok_bind]
      simp only [hkey, schar_zero]
      rw [if_neg (by decide), if_neg (by decide), List.mem_cons, mem_steps_bind]
      exact Or.inr (Or.inl List.mem_cons_self)
    · have hpos : schar 0 < key.toNat := by
        rw [schar_zero, Nat.cast_pos]
        exact UInt8.lt_iff_toNat_lt.mp (UInt8.pos_iff_ne_zero.mpr hkey)
      constructor
      · rintro ⟨-, hnot⟩ fuel tail
        cases fuel with
        | zero => exact ⟨by simp [findReading], rfl⟩
        | succ fuel =>
          unfold findReading Trie.find readAt
          simp only [Trie.node_eq_ok.mpr hnode, quiet_ok_bind, bind_ok, hfirst, note_ok_bind]
          rw [if_pos hpos, if_pos hpos, if_pos hpos, List.forall_mem_cons]
          exact ⟨⟨by omega, (hinside hnot fuel tail).1⟩, (hinside hnot fuel tail).2⟩
      · rintro (h | h) tail
        · exact absurd h.symm hkey
        · obtain ⟨fuel, hfuel⟩ := hpast h tail
          refine ⟨fuel + 1, ?_⟩
          unfold findReading readAt
          rw [Trie.node_eq_ok.mpr hnode, quiet_ok_bind, hfirst, note_ok_bind]
          simp only
          rw [if_pos hpos, List.mem_cons]
          exact Or.inr hfuel

/-! ## The bounds of the word -/

/-- `Insert` reads no byte past the NUL of the word, and the bytes there make no difference. -/
def InsertStaysInside (T : Trie) (word : CString) : Prop :=
  ∀ fuel tail,
    (∀ i ∈ (insertReading fuel 0 (c_str word.bytes ++ tail) .root T).steps,
      i ≤ word.bytes.length) ∧
    Trie.insert fuel (c_str word.bytes ++ tail) .root T =
      Trie.insert fuel (c_str word.bytes) .root T

/-- `Find` reads no byte past the NUL of the word, and the bytes there make no difference. -/
def FindStaysInside (T : Trie) (word : CString) : Prop :=
  ∀ fuel tail,
    (∀ i ∈ (findReading T fuel 0 (c_str word.bytes ++ tail) T.root).steps,
      i ≤ word.bytes.length) ∧
    T.find fuel (c_str word.bytes ++ tail) T.root = T.find fuel (c_str word.bytes) T.root

theorem insertStaysInside_of_ne_nil (T : Trie) {word : CString} (hne : word.bytes ≠ []) :
    InsertStaysInside T word := by
  obtain ⟨c, rest, hword⟩ := List.exists_cons_of_ne_nil hne
  intro fuel tail
  unfold c_str
  rw [hword, List.append_assoc]
  refine ⟨fun i hi => ?_, insert_tail fuel c rest tail .root T⟩
  have hle := insertReading_inside fuel 0 c rest tail .root T i hi
  omega

theorem findStaysInside_of_ne_nil (T : Trie) {word : CString} (hne : word.bytes ≠ []) :
    FindStaysInside T word := by
  obtain ⟨c, rest, hword⟩ := List.exists_cons_of_ne_nil hne
  intro fuel tail
  unfold c_str
  rw [hword, List.append_assoc]
  refine ⟨fun i hi => ?_, find_tail T fuel c rest tail T.root⟩
  have hle := findReading_inside T fuel 0 c rest tail T.root i hi
  omega

section
variable {T : Trie} {parent : Option Nat} {t : Tst UInt8} (hrep : Rep T.heap parent t)
  (hroot : T.root = t.head)
include hrep hroot

theorem insertStaysInside_iff (word : CString) :
    InsertStaysInside T word ↔ word.bytes ≠ [] := by
  constructor
  · intro hinside hnil
    have hload : T.load .root = .ok t.head := congrArg Except.ok hroot
    obtain ⟨fuel, hread⟩ := insert_empty_reads hrep hload 0 []
    have hle := (hinside fuel []).1 (0 + 1)
    simp only [c_str, hnil, List.nil_append, List.append_nil] at hle
    exact absurd (hle hread) (by decide)
  · exact insertStaysInside_of_ne_nil T

theorem findStaysInside_iff (word : CString) :
    FindStaysInside T word ↔ (word.bytes = [] → 0 ∉ leftKeys t) := by
  obtain ⟨hinside, hpast⟩ := find_empty hrep 0
  constructor
  · intro hall hnil hzero
    obtain ⟨fuel, hread⟩ := hpast hzero []
    have hle := (hall fuel []).1 (0 + 1)
    simp only [c_str, hnil, List.nil_append, List.append_nil, hroot] at hle
    exact absurd (hle hread) (by decide)
  · intro h
    by_cases hnil : word.bytes = []
    · intro fuel tail
      simp only [c_str, hnil, List.nil_append, hroot]
      exact hinside (h hnil) fuel tail
    · exact findStaysInside_of_ne_nil T hnil

end

/-- On every finite trie, `Insert` and `Find` of a word stay inside its bytes and its NUL exactly
when the word is not empty. `Find` of the empty word leaves them only when left links lead from
the root to a node with the key 0, as `Insert` of the empty word makes it. -/
theorem the_calls_stay_inside_the_word_iff_it_is_not_empty {T : Trie} {parent : Option Nat}
    {t : Tst UInt8} (hrep : Rep T.heap parent t) (hroot : T.root = t.head) (word : CString) :
    (InsertStaysInside T word ∧ FindStaysInside T word ↔ word.bytes ≠ []) ∧
    (FindStaysInside T word ↔ (word.bytes = [] → 0 ∉ leftKeys t)) := by
  refine ⟨?_, findStaysInside_iff hrep hroot word⟩
  rw [insertStaysInside_iff hrep hroot, findStaysInside_iff hrep hroot]
  exact ⟨And.left, fun hne => ⟨hne, fun h => absurd h hne⟩⟩

/-- In a trie with the word, `Find` reads both letters and the NUL, and nothing behind it. -/
theorem the_calls_stay_inside_ab :
    ∃ T, Trie.insertAll 9 [bytes "ab"] .empty = .ok T ∧
      (findReading T 9 0 (c_str (bytes "ab")) T.root).steps = [0, 1, 1, 2] ∧
      InsertStaysInside T ⟨bytes "ab", by decide⟩ ∧ FindStaysInside T ⟨bytes "ab", by decide⟩ := by
  have hplain : ∀ w ∈ [bytes "ab"], Plain w := by decide +kernel
  obtain ⟨T, t, hinsert, hbuilt⟩ :=
    insertAll_built (fun w hw => (hplain w hw).storable) (by decide : _ < 9)
  have hreads : (Trie.insertAll 9 [bytes "ab"] .empty).map
      (fun T => (findReading T 9 0 (c_str (bytes "ab")) T.root).steps) = .ok [0, 1, 1, 2] := by
    rfl
  rw [hinsert] at hreads
  exact ⟨T, hinsert, Except.ok.inj hreads,
    (the_calls_stay_inside_the_word_iff_it_is_not_empty hbuilt.rep hbuilt.root
      ⟨bytes "ab", by decide⟩).1.mpr (by decide)⟩

/-- `Insert` of the empty word into an empty trie. With the end of the line `tea` left behind it
in the memory, two more nodes are made than with another NUL there. -/
theorem insert_of_the_empty_word_goes_on_with_what_is_left_of_tea :
    ¬ (InsertStaysInside .empty ⟨[], by decide⟩ ∧ FindStaysInside .empty ⟨[], by decide⟩) ∧
    (Trie.insert 9 (c_str [] ++ bytes "ea" ++ [0]) .root .empty).map (fun r => r.2.heap.length) =
      .ok 3 ∧
    (Trie.insert 9 (c_str [] ++ [0]) .root .empty).map (fun r => r.2.heap.length) = .ok 1 := by
  refine ⟨?_, by rfl, by rfl⟩
  rintro ⟨hinside, -⟩
  have hread : 1 ∈ (insertReading 9 0 (c_str [] ++ []) .root .empty).steps := by decide +kernel
  exact absurd ((hinside 9 []).1 1 hread) (by decide)

end anagram
