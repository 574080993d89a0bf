-- `FuzzyFind` with a record of its assignments to the result map. The map forgets
-- an assignment when its key is assigned again, and the record does not. Without
-- the record, the functions here are those of the source.
import Anagram.FuzzyFind

open outcome

namespace anagram

/-- An assignment to the result map: the key and the text. -/
abbrev Write := Int × Text

/-- The map after some assignments. -/
def replay (log : List Write) (words : Std.TreeMap Int Text) : Std.TreeMap Int Text :=
  log.foldl (fun words w => words.insert w.1 w.2) words

theorem replay_append (log more : List Write) (words : Std.TreeMap Int Text) :
    replay (log ++ more) words = replay more (replay log words) := List.foldl_append

/-- What is in a map that was empty has been assigned. -/
theorem mem_of_getElem?_replay {log : List Write} {words : Std.TreeMap Int Text} {k : Int}
    {x : Text} (h : (replay log words)[k]? = some x) : words[k]? = some x ∨ (k, x) ∈ log := by
  induction log generalizing words with
  | nil => exact Or.inl h
  | cons w log ih =>
    rcases ih h with hfirst | hlater
    · rw [Std.TreeMap.getElem?_insert] at hfirst
      split_ifs at hfirst with hk
      · rw [Std.LawfulEqCmp.compare_eq_iff_eq] at hk
        cases hfirst
        exact Or.inr (hk ▸ List.mem_cons_self)
      · exact Or.inl hfirst
    · exact Or.inr (List.mem_cons_of_mem _ hlater)

/-! ## The functions with their record -/

/-- The assignment of `commit`, if it does not unwind. -/
def commitWrites (columns : Text → Nat → Nat) (stem word : Text) (max_diff : Int)
    (s : Extrapolation) : List Write :=
  let compound := stem ++ s.accum
  let score := calcLevenshtein (columns compound) word (cString compound)
  if max_diff ≠ 0 ∧ score > max_diff then []
  else [(tieKey (breakTie score s).1 score, compound)]

/-- `endOfWord`, with the assignments so far. -/
def endOfWordLogged (t : Trie) (columns : Text → Nat → Nat) (root : Nat) (stem word : Text)
    (max_diff : Int) (node : Nat) (n : TNode) (s : Extrapolation) (log : List Write) :
    Run (Bool × Extrapolation × List Write) :=
  if n.terminator_ then do
    let accum ← climb t root (t.heap.length + 1) (some node) s.accum
    let s := { s with accum := accum }
    .ok ((commit columns stem word max_diff s).1, (commit columns stem word max_diff s).2,
      log ++ commitWrites columns stem word max_diff s)
  else .ok (true, s, log)

/-- `extrapolate`, with the assignments so far. -/
def extrapolateLogged (t : Trie) (columns : Text → Nat → Nat) (root : Nat) (stem word : Text)
    (max_diff : Int) :
    Nat → Option Nat → Extrapolation → List Write → Run (Extrapolation × List Write)
  | 0, _, _, _ => .error .out_of_fuel
  | _ + 1, none, s, log => .ok (s, log)
  | fuel + 1, some node, s, log => do
    let n ← t.node node
    let (go, s, log) ← endOfWordLogged t columns root stem word max_diff node n s log
    if go then do
      let (s, log) ← extrapolateLogged t columns root stem word max_diff fuel n.l_ s log
      let (s, log) ← extrapolateLogged t columns root stem word max_diff fuel n.c_ s log
      extrapolateLogged t columns root stem word max_diff fuel n.r_ s log
    else .ok (s, log)

/-- `fuzzyFind`, with all its assignments. -/
def fuzzyFindLogged (t : Trie) (columns : Text → Nat → Nat) (max_diff_ : Int) (fuel : Nat)
    (word : Text) (pParent : Option Nat) (words : Std.TreeMap Int Text) :
    Run (Std.TreeMap Int Text × List Write) := do
  let (found, node, search_word) ← stemLoop t fuel pParent word word.length
  let (words, log) :=
    if found then (words.insert 0 search_word, [((0 : Int), search_word)]) else (words, [])
  match node with
  | none => .ok (words, log)
  | some node => do
    let n ← t.node node
    let (s, log) ← extrapolateLogged t columns node search_word word max_diff_ fuel n.c_
      ⟨words, ∅, [], 0⟩ log
    .ok (s.words, log)

/-! ## Without the record -/

theorem endOfWordLogged_erase (t : Trie) (columns : Text → Nat → Nat) (root : Nat)
    (stem word : Text) (max_diff : Int) (node : Nat) (n : TNode) (s : Extrapolation)
    (log : List Write) :
    (endOfWordLogged t columns root stem word max_diff node n s log).map (fun x => (x.1, x.2.1)) =
      endOfWord t columns root stem word max_diff node n s := by
  unfold endOfWordLogged endOfWord
  split_ifs
  · cases climb t root (t.heap.length + 1) (some node) s.accum <;> rfl
  · rfl

theorem extrapolateLogged_erase (t : Trie) (columns : Text → Nat → Nat) (root : Nat)
    (stem word : Text) (max_diff : Int) (fuel : Nat) (node : Option Nat) (s : Extrapolation)
    (log : List Write) :
    (extrapolateLogged t columns root stem word max_diff fuel node s log).map Prod.fst =
      extrapolate t columns root stem word max_diff fuel node s := by
  induction fuel generalizing node s log with
  | zero => rfl
  | succ fuel ih =>
    cases node with
    | none => rfl
    | some node =>
      unfold extrapolateLogged extrapolate
      cases t.node node with
      | error e => rfl
      | ok n =>
        simp only [bind_ok]
        apply map_bind_eq (endOfWordLogged_erase t columns root stem word max_diff node n s log)
        rintro ⟨go, s₁, log₁⟩
        cases go with
        | false => rfl
        | true =>
          simp only [if_true]
          apply map_bind_eq (ih n.l_ s₁ log₁)
          rintro ⟨s₂, log₂⟩
          apply map_bind_eq (ih n.c_ s₂ log₂)
          rintro ⟨s₃, log₃⟩
          exact ih n.r_ s₃ log₃

/-- Without its record, the function is `FuzzyFind`. -/
theorem fuzzyFindLogged_erase (t : Trie) (columns : Text → Nat → Nat) (max_diff_ : Int)
    (fuel : Nat) (word : Text) (pParent : Option Nat) (words : Std.TreeMap Int Text) :
    (fuzzyFindLogged t columns max_diff_ fuel word pParent words).map Prod.fst =
      fuzzyFind t columns max_diff_ fuel word pParent words := by
  unfold fuzzyFindLogged fuzzyFind
  cases stemLoop t fuel pParent word word.length with
  | error e => rfl
  | ok r =>
    obtain ⟨found, node, search_word⟩ := r
    cases node with
    | none => cases found <;> rfl
    | some node =>
      simp only [bind_ok]
      unfold extrapolateAll
      cases t.node node with
      | error e => cases found <;> rfl
      | ok n =>
        cases found <;>
        · simp only [bind_ok]
          apply map_bind_eq (extrapolateLogged_erase ..)
          exact fun _ => rfl

/-! ## The record makes the map -/

theorem commit_replay (columns : Text → Nat → Nat) (stem word : Text) (max_diff : Int)
    (s : Extrapolation) : (commit columns stem word max_diff s).2.words =
      replay (commitWrites columns stem word max_diff s) s.words := by
  have hsame : ∀ score : Int, (breakTie score s).2.words = s.words := by
    intro score
    unfold breakTie
    split <;> rfl
  unfold commit commitWrites
  dsimp only
  split_ifs
  · rfl
  · exact congrArg (fun words : Std.TreeMap Int Text => words.insert _ _) (hsame _)

theorem extrapolateLogged_replay {t : Trie} {columns : Text → Nat → Nat} {root : Nat}
    {stem word : Text} {max_diff : Int} {start : Std.TreeMap Int Text} (fuel : Nat)
    {node : Option Nat} {s s' : Extrapolation} {log log' : List Write}
    (h : s.words = replay log start)
    (hrun : extrapolateLogged t columns root stem word max_diff fuel node s log = .ok (s', log')) :
    s'.words = replay log' start := by
  induction fuel generalizing node s s' log log' with
  | zero => cases hrun
  | succ fuel ih =>
    cases node with
    | none =>
      cases hrun
      exact h
    | some node =>
      unfold extrapolateLogged at hrun
      obtain ⟨n, -, hrun⟩ := bind_eq_ok.mp hrun
      obtain ⟨⟨go, s₁, log₁⟩, hend, hrun⟩ := bind_eq_ok.mp hrun
      have h₁ : s₁.words = replay log₁ start := by
        unfold endOfWordLogged at hend
        split_ifs at hend
        · obtain ⟨accum, -, hend⟩ := bind_eq_ok.mp hend
          cases hend
          rw [commit_replay, replay_append, ← h]
        · cases hend
          exact h
      cases go with
      | false =>
        cases hrun
        exact h₁
      | true =>
        obtain ⟨⟨s₂, log₂⟩, hl, hrun⟩ := bind_eq_ok.mp hrun
        obtain ⟨⟨s₃, log₃⟩, hc, hrun⟩ := bind_eq_ok.mp hrun
        exact ih (ih (ih h₁ hl) hc) hrun

/-- The map that `FuzzyFind` gives is the one that its assignments make. -/
theorem fuzzyFindLogged_replay {t : Trie} {columns : Text → Nat → Nat} {max_diff_ : Int}
    {fuel : Nat} {word : Text} {pParent : Option Nat} {words m : Std.TreeMap Int Text}
    {log : List Write}
    (hrun : fuzzyFindLogged t columns max_diff_ fuel word pParent words = .ok (m, log)) :
    m = replay log words := by
  unfold fuzzyFindLogged at hrun
  obtain ⟨⟨found, node, search_word⟩, -, hrun⟩ := bind_eq_ok.mp hrun
  have hstart : (if found then (words.insert 0 search_word, [((0 : Int), search_word)])
      else (words, [])).1 = replay (if found then (words.insert 0 search_word,
        [((0 : Int), search_word)]) else (words, [])).2 words := by
    cases found <;> rfl
  cases node with
  | none =>
    cases hrun
    exact hstart
  | some node =>
    obtain ⟨n, -, hrun⟩ := bind_eq_ok.mp hrun
    obtain ⟨⟨s, log'⟩, hextra, hrun⟩ := bind_eq_ok.mp hrun
    cases hrun
    exact extrapolateLogged_replay fuel hstart hextra

end anagram
