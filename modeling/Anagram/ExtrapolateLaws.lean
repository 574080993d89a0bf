-- What a lookup without a distance threshold collects. The traversal commits
-- the words below the stem one after another, and as long as no score is
-- shared by more words than the ties of a key can count, each gets its own
-- key, so the map has them all.
import Anagram.FuzzyWrites
import Anagram.TrieWords

open search_trie outcome

namespace anagram

/-! ## The path up to the root -/

/-- From the pointer up, the loop finds the keys of `path` before the root. -/
def Climbs (T : Trie) (root : Nat) (p : Option Nat) (path : Text) : Prop :=
  ∀ fuel accum, path.length < fuel → climb T root fuel p accum = .ok (path ++ accum)

theorem climbs_root (T : Trie) (root : Nat) : Climbs T root (some root) [] := by
  intro fuel accum hfuel
  cases fuel with
  | zero => exact absurd hfuel (Nat.not_lt_zero _)
  | succ fuel =>
    unfold climb
    exact if_pos rfl

/-- The path from a node is that of its parent, and its key. -/
theorem Climbs.node {T : Trie} {root a : Nat} {n : TNode} {path : Text}
    (h : Climbs T root n.parent_ path) (hnode : T.heap[a]? = some n) (ha : a ≠ root) :
    Climbs T root (some a) (path ++ [n.key_]) := by
  intro fuel accum hfuel
  cases fuel with
  | zero => exact absurd hfuel (Nat.not_lt_zero _)
  | succ fuel =>
    simp only [List.length_append, List.length_singleton] at hfuel
    unfold climb
    rw [if_neg ha, Trie.node_eq_ok.mpr hnode, bind_ok, h fuel _ (by omega), List.append_assoc]
    rfl

/-! ## The traversal -/

section
variable {T : Trie} (columns : Text → Nat → Nat) {root : Nat} (stem word : Text)

/-- The distance of the query to the word `stem ++ v`. -/
def scoreOf (v : Text) : Int := calcLevenshtein (columns (stem ++ v)) word (cString (stem ++ v))

/-- Whether the word `stem ++ v` is past the threshold. -/
def isOver (max_diff : Int) (v : Text) : Bool :=
  decide (max_diff ≠ 0 ∧ scoreOf columns stem word v > max_diff)

/-- What the traversal does for the word `stem ++ v`, when there is no threshold. -/
def addWord (s : Extrapolation) (v : Text) : Extrapolation :=
  (commit columns stem word 0 { s with accum := v }).2

/-- The same, with the assignments so far. -/
def addWrite (x : Extrapolation × List Write) (v : Text) : Extrapolation × List Write :=
  (addWord columns stem word x.1 v,
    x.2 ++ commitWrites columns stem word 0 { x.1 with accum := v })

theorem fst_foldl_addWrite (vs : List Text) (x : Extrapolation × List Write) :
    (vs.foldl (addWrite columns stem word) x).1 = vs.foldl (addWord columns stem word) x.1 := by
  induction vs generalizing x with
  | nil => rfl
  | cons v vs ih => exact ih _

theorem accum_foldl_addWrite (vs : List Text) {x : Extrapolation × List Write}
    (hs : x.1.accum = []) : (vs.foldl (addWrite columns stem word) x).1.accum = [] := by
  induction vs generalizing x with
  | nil => exact hs
  | cons v vs ih => exact ih rfl

/-- A word that is not past the threshold is added as if there were none. -/
theorem commit_within {max_diff : Int} {v : Text} (h : isOver columns stem word max_diff v = false)
    (s : Extrapolation) :
    commit columns stem word max_diff { s with accum := v } =
        (true, addWord columns stem word s v) ∧
      commitWrites columns stem word max_diff { s with accum := v } =
        commitWrites columns stem word 0 { s with accum := v } := by
  have hnot : ¬ (max_diff ≠ 0 ∧ scoreOf columns stem word v > max_diff) := by
    simpa only [isOver, decide_eq_false_iff_not] using h
  unfold addWord commit commitWrites
  constructor
  · exact if_neg hnot
  · exact if_neg hnot

/-- A word past the threshold is not added, and the call unwinds. -/
theorem commit_over {max_diff : Int} {v : Text} (h : isOver columns stem word max_diff v = true)
    (s : Extrapolation) :
    commit columns stem word max_diff { s with accum := v } = (false, { s with accum := [] }) ∧
      commitWrites columns stem word max_diff { s with accum := v } = [] := by
  have hover : max_diff ≠ 0 ∧ scoreOf columns stem word v > max_diff := by
    simpa only [isOver, decide_eq_true_eq] using h
  unfold commit commitWrites
  constructor
  · exact if_pos hover
  · exact if_pos hover

/-- From a state with an empty accumulator, the part of the traversal adds the words one after
another. -/
def Adds (part : Extrapolation → List Write → Run (Extrapolation × List Write))
    (vs : List Text) : Prop :=
  ∀ s log, s.accum = [] → part s log = .ok (vs.foldl (addWrite columns stem word) (s, log))

/-- One part after another adds the words of both. -/
theorem Adds.seq {part later : Extrapolation → List Write → Run (Extrapolation × List Write)}
    {us vs : List Text} (hpart : Adds columns stem word part us)
    (hlater : Adds columns stem word later vs) :
    Adds columns stem word (fun s log => part s log >>= fun x => later x.1 x.2) (us ++ vs) := by
  intro s log hs
  have hempty := accum_foldl_addWrite columns stem word us (x := (s, log)) hs
  dsimp only
  rw [hpart s log hs, bind_ok, hlater _ _ hempty, List.foldl_append]

/-- The traversal of a tree commits the words it gets to, in their order. -/
theorem extrapolateLogged_visited {t : Tst UInt8} {parent : Option Nat} {path : Text}
    {max_diff : Int} {fuel : Nat} {s : Extrapolation} (hrep : Rep T.heap parent t)
    (hclimb : Climbs T root parent path) (hroot : root ∉ t.addrs)
    (hfuel : t.addrs.length < fuel) (hpath : path.length + t.addrs.length ≤ T.heap.length)
    (hs : s.accum = []) (log : List Write) :
    extrapolateLogged T columns root stem word max_diff fuel t.head s log =
      .ok (((t.visited fun v => isOver columns stem word max_diff (path ++ v)).map
        (path ++ ·)).foldl (addWrite columns stem word) (s, log)) := by
  induction t generalizing parent path fuel s log with
  | nil =>
    cases fuel with
    | zero => exact absurd hfuel (Nat.not_lt_zero _)
    | succ fuel => rfl
  | node a key terminator l c r ihl ihc ihr =>
    cases fuel with
    | zero => exact absurd hfuel (Nat.not_lt_zero _)
    | succ fuel =>
      obtain ⟨⟨upper, hnode⟩, hl, hc, hr⟩ := hrep
      simp only [Tst.addrs, List.mem_cons, List.mem_append, not_or] at hroot
      simp only [Tst.addrs, List.length_cons, List.length_append] at hfuel hpath
      have hhere : Climbs T root (some a) (path ++ [key]) :=
        Climbs.node (n := ⟨parent, l.head, c.head, r.head, key, terminator, upper⟩) hclimb hnode
          (Ne.symm hroot.1)
      have hlength : (path ++ [key]).length = path.length + 1 := List.length_append
      have hleft : Adds columns stem word
          (extrapolateLogged T columns root stem word max_diff fuel l.head)
          ((l.visited fun v => isOver columns stem word max_diff (path ++ v)).map (path ++ ·)) :=
        fun s log hs => ihl hl hclimb hroot.2.1.1 (by omega) (by omega) hs log
      have hcenter : Adds columns stem word
          (extrapolateLogged T columns root stem word max_diff fuel c.head)
          ((c.visited fun v => isOver columns stem word max_diff (path ++ [key] ++ v)).map
            (path ++ [key] ++ ·)) :=
        fun s log hs => ihc hc hhere hroot.2.1.2 (by omega) (by omega) hs log
      have hright : Adds columns stem word
          (extrapolateLogged T columns root stem word max_diff fuel r.head)
          ((r.visited fun v => isOver columns stem word max_diff (path ++ v)).map (path ++ ·)) :=
        fun s log hs => ihr hr hclimb hroot.2.2 (by omega) (by omega) hs log
      -- the words below the node have its key between the path and the rest
      have hrest := hleft.seq columns stem word (hcenter.seq columns stem word hright)
      have hkey : ∀ vs : List Text, vs.map (path ++ [key] ++ ·) =
          (vs.map (key :: ·)).map (path ++ ·) := by simp
      have hcut : (fun v => isOver columns stem word max_diff (path ++ [key] ++ v)) =
          fun v => isOver columns stem word max_diff (path ++ (key :: v)) := by simp
      rw [hkey, hcut, ← List.map_append, ← List.map_append] at hrest
      rw [Tst.head_node]
      unfold extrapolateLogged Tst.visited
      rw [Trie.node_eq_ok.mpr hnode, bind_ok]
      unfold endOfWordLogged
      cases terminator with
      | false => exact hrest s log hs
      | true =>
        rw [if_pos rfl, hhere _ _ (by omega), hs, List.append_nil, bind_ok]
        dsimp only
        rcases Bool.eq_false_or_eq_true (isOver columns stem word max_diff (path ++ [key]))
          with hover | hover
        · obtain ⟨hcommit, hwrites⟩ := commit_over columns stem word hover s
          have hsame : ({ s with accum := [] } : Extrapolation) = s := by
            rw [← hs]
          rw [hcommit, hwrites, List.append_nil, hsame, if_pos (by simp [hover])]
          rfl
        · obtain ⟨hcommit, hwrites⟩ := commit_within columns stem word hover s
          rw [hcommit, hwrites, if_neg (by simp [hover])]
          exact hrest _ _ rfl

/-- The traversal of a tree commits its words in their order. -/
theorem extrapolate_words {t : Tst UInt8} {parent : Option Nat} {path : Text} {fuel : Nat}
    {s : Extrapolation} (hrep : Rep T.heap parent t) (hclimb : Climbs T root parent path)
    (hroot : root ∉ t.addrs) (hfuel : t.addrs.length < fuel)
    (hpath : path.length + t.addrs.length ≤ T.heap.length) (hs : s.accum = []) :
    extrapolate T columns root stem word 0 fuel t.head s =
      .ok ((t.words.map (path ++ ·)).foldl (addWord columns stem word) s) := by
  have hlogged := @extrapolateLogged_visited T columns root stem word t parent path 0 fuel s hrep
    hclimb hroot hfuel hpath hs []
  rw [← extrapolateLogged_erase _ _ _ _ _ _ _ _ _ [], hlogged,
    Tst.visited_eq_words t (by simp [isOver])]
  exact congrArg Except.ok (fst_foldl_addWrite columns stem word _ (s, []))

end

/-! ## Keys -/

/-- The low 12 bits of a key count ties, and the score is above them. -/
theorem tieKey_eq {tie score : Int} (htie : 0 ≤ tie ∧ tie < 4096)
    (hscore : 0 ≤ score ∧ score < 2 ^ 19) : tieKey tie score = tie + score * 4096 := by
  unfold tieKey
  apply Int.bmod_eq_of_le
  · omega
  · omega

theorem tieKey_inj {tie score tie' score' : Int} (htie : 0 ≤ tie ∧ tie < 4096)
    (hscore : 0 ≤ score ∧ score < 2 ^ 19) (htie' : 0 ≤ tie' ∧ tie' < 4096)
    (hscore' : 0 ≤ score' ∧ score' < 2 ^ 19) (h : tieKey tie score = tieKey tie' score') :
    tie = tie' ∧ score = score' := by
  rw [tieKey_eq htie hscore, tieKey_eq htie' hscore'] at h
  omega

/-- How many words have a score. -/
def tally (score : Text → Int) (vs : List Text) (x : Int) : Nat := vs.countP fun v => score v = x

theorem tally_snoc (score : Text → Int) (vs : List Text) (v : Text) (x : Int) :
    tally score (vs ++ [v]) x = tally score vs x + if score v = x then 1 else 0 := by
  simp [tally, List.countP_append, List.countP_cons]

/-- The scores and the ties fit in a key. A score of 0 is left to the stem. -/
structure Keyed (score : Text → Int) (vs : List Text) : Prop where
  score_pos : ∀ v ∈ vs, 1 ≤ score v
  score_lt : ∀ v ∈ vs, score v < 2 ^ 19
  tally_le : ∀ x, tally score vs x ≤ 4096

theorem Keyed.of_prefix {score : Text → Int} {us vs : List Text} (h : Keyed score (us ++ vs)) :
    Keyed score us := by
  refine ⟨fun v hv => h.score_pos v (by simp [hv]), fun v hv => h.score_lt v (by simp [hv]),
    fun x => ?_⟩
  apply le_trans _ (h.tally_le x)
  simp [tally, List.countP_append]

/-- After the words `vs`, the lookup has the last tie of each score. The map has what it had at
the start, and each word, under a key of its own. -/
structure Tallied (score : Text → Int) (stem : Text) (start : Std.TreeMap Int Text)
    (vs : List Text) (s : Extrapolation) : Prop where
  lookup : ∀ x, s.tie_breaker_lookup[x]? =
    if tally score vs x = 0 then none else some ((tally score vs x : Int) - 1)
  keys : ∀ k, k ∈ s.words → k ∈ start ∨
    ∃ v ∈ vs, ∃ tie : Nat, tie < tally score vs (score v) ∧ k = tieKey tie (score v)
  values : ∀ x : Text, (∃ k : Int, s.words[k]? = some x) ↔
    (∃ k : Int, start[k]? = some x) ∨ ∃ v ∈ vs, x = stem ++ v

theorem tallied_start (score : Text → Int) (stem : Text) (start : Std.TreeMap Int Text) :
    Tallied score stem start [] ⟨start, ∅, [], 0⟩ := by
  refine ⟨fun x => ?_, fun k hk => Or.inl hk, fun x => ?_⟩
  · simp [tally]
  · simp

/-- The lookup of the ties has the last tie of each score that a word has. -/
def Counted (score : Text → Int) (vs : List Text) (s : Extrapolation) : Prop :=
  ∀ x, s.tie_breaker_lookup[x]? =
    if tally score vs x = 0 then none else some ((tally score vs x : Int) - 1)

/-- The tie breaker of the next word of a score is the number of its words so far. -/
theorem breakTie_counted {score : Text → Int} {vs : List Text} {s : Extrapolation}
    (h : Counted score vs s) (x : Int) :
    (breakTie x s).1 = tally score vs x ∧ (breakTie x s).2.words = s.words ∧
      (breakTie x s).2.tie_breaker_lookup =
        s.tie_breaker_lookup.insert x (tally score vs x : Int) := by
  have hlookup := h x
  unfold breakTie
  split_ifs at hlookup with hzero
  · rw [hlookup, hzero]
    exact ⟨rfl, rfl, rfl⟩
  · rw [hlookup]
    simp

theorem breakTie_tallied {score : Text → Int} {stem : Text} {start : Std.TreeMap Int Text}
    {vs : List Text} {s : Extrapolation} (h : Tallied score stem start vs s) (x : Int) :
    (breakTie x s).1 = tally score vs x ∧ (breakTie x s).2.words = s.words ∧
      (breakTie x s).2.tie_breaker_lookup =
        s.tie_breaker_lookup.insert x (tally score vs x : Int) :=
  breakTie_counted h.lookup x

theorem tally_le_snoc (score : Text → Int) (vs : List Text) (v : Text) (x : Int) :
    tally score vs x ≤ tally score (vs ++ [v]) x := by
  rw [tally_snoc]
  exact Nat.le_add_right _ _

/-- No key is used twice: the next one has a tie that no word of its score has yet. -/
theorem tieKey_fresh {score : Text → Int} {stem : Text} {start : Std.TreeMap Int Text}
    {vs : List Text} {s : Extrapolation} (h : Tallied score stem start vs s)
    (hstart : ∀ k ∈ start, k = 0) {v : Text} (hkeyed : Keyed score (vs ++ [v])) :
    tieKey (tally score vs (score v)) (score v) ∉ s.words := by
  have hv := hkeyed.tally_le (score v)
  have hpos := hkeyed.score_pos v (by simp)
  have hlt := hkeyed.score_lt v (by simp)
  rw [tally_snoc, if_pos rfl] at hv
  intro hmem
  rcases h.keys _ hmem with hold | ⟨u, hu, tie, hlt', heq⟩
  · have hkey := hstart _ hold
    rw [tieKey_eq (by omega) (by omega)] at hkey
    omega
  · have hu' := hkeyed.tally_le (score u)
    have hle := tally_le_snoc score vs v (score u)
    have hupos := hkeyed.score_pos u (by simp [hu])
    have hult := hkeyed.score_lt u (by simp [hu])
    obtain ⟨htie, hscore⟩ := tieKey_inj (by omega) (by omega) (by omega) (by omega) heq
    rw [hscore] at htie
    omega

/-- An assignment to a key that is not there adds its text to those of the map. -/
theorem values_insert {m : Std.TreeMap Int Text} {k : Int} (hfresh : k ∉ m) (v x : Text) :
    (∃ j : Int, (m.insert k v)[j]? = some x) ↔ (∃ j : Int, m[j]? = some x) ∨ x = v := by
  simp only [Std.TreeMap.getElem?_insert]
  constructor
  · rintro ⟨j, hj⟩
    split_ifs at hj
    · cases hj
      exact Or.inr rfl
    · exact Or.inl ⟨j, hj⟩
  · rintro (⟨j, hj⟩ | rfl)
    · refine ⟨j, ?_⟩
      rw [if_neg, hj]
      intro heq
      rw [Std.LawfulEqCmp.compare_eq_iff_eq] at heq
      apply hfresh
      rw [heq, Std.TreeMap.mem_iff_isSome_getElem?, hj]
      rfl
    · exact ⟨k, if_pos Std.ReflCmp.compare_self⟩

/-- A state with one more word, under the next key of its score. -/
theorem Tallied.snoc {score : Text → Int} {stem : Text} {start : Std.TreeMap Int Text}
    {vs : List Text} {s s' : Extrapolation} (h : Tallied score stem start vs s)
    (hstart : ∀ k ∈ start, k = 0) {v : Text} (hkeyed : Keyed score (vs ++ [v]))
    (hwords : s'.words =
      s.words.insert (tieKey (tally score vs (score v)) (score v)) (stem ++ v))
    (hlookup : s'.tie_breaker_lookup =
      s.tie_breaker_lookup.insert (score v) (tally score vs (score v) : Int)) :
    Tallied score stem start (vs ++ [v]) s' := by
  have hfresh := tieKey_fresh h hstart hkeyed
  refine ⟨fun x => ?_, fun k hk => ?_, fun x => ?_⟩
  · rw [hlookup, Std.TreeMap.getElem?_insert, tally_snoc, h.lookup x]
    by_cases hx : score v = x
    · subst hx
      simp
    · simp [hx]
  · rw [hwords, Std.TreeMap.mem_insert] at hk
    rcases hk with hk | hk
    · rw [Std.LawfulEqCmp.compare_eq_iff_eq] at hk
      refine Or.inr ⟨v, by simp, tally score vs (score v), ?_, hk.symm⟩
      rw [tally_snoc, if_pos rfl]
      omega
    · rcases h.keys k hk with hk | ⟨u, hu, tie, hlt, heq⟩
      · exact Or.inl hk
      · exact Or.inr ⟨u, by simp [hu], tie, hlt.trans_le (tally_le_snoc score vs v _), heq⟩
  · rw [hwords, values_insert hfresh, h.values]
    simp only [List.mem_append, List.mem_singleton, or_and_right, exists_or, exists_eq_left,
      or_assoc]

section
variable (columns : Text → Nat → Nat) (stem word : Text)

theorem addWord_tallied {start : Std.TreeMap Int Text} {vs : List Text} {s : Extrapolation}
    (h : Tallied (scoreOf columns stem word) stem start vs s) (hstart : ∀ k ∈ start, k = 0)
    {v : Text} (hkeyed : Keyed (scoreOf columns stem word) (vs ++ [v])) :
    Tallied (scoreOf columns stem word) stem start (vs ++ [v]) (addWord columns stem word s v) := by
  have haccum : Tallied (scoreOf columns stem word) stem start vs { s with accum := v } :=
    ⟨h.lookup, h.keys, h.values⟩
  obtain ⟨htie, hwords, hlookup⟩ := breakTie_tallied haccum (scoreOf columns stem word v)
  have hdef : (addWord columns stem word s v).words =
      (breakTie (scoreOf columns stem word v) { s with accum := v }).2.words.insert
        (tieKey (breakTie (scoreOf columns stem word v) { s with accum := v }).1
          (scoreOf columns stem word v)) (stem ++ v) := rfl
  apply h.snoc hstart hkeyed
  · rw [hdef, htie, hwords]
  · exact hlookup

theorem foldl_addWord_tallied {start : Std.TreeMap Int Text} (hstart : ∀ k ∈ start, k = 0)
    {us vs : List Text} {s : Extrapolation}
    (h : Tallied (scoreOf columns stem word) stem start us s)
    (hkeyed : Keyed (scoreOf columns stem word) (us ++ vs)) :
    Tallied (scoreOf columns stem word) stem start (us ++ vs)
      (vs.foldl (addWord columns stem word) s) := by
  induction vs generalizing us s with
  | nil => simpa using h
  | cons v vs ih =>
    have hsplit : us ++ v :: vs = us ++ [v] ++ vs := by simp
    rw [hsplit] at hkeyed ⊢
    exact ih (addWord_tallied columns stem word h hstart hkeyed.of_prefix) hkeyed

end

/-! ## The search for one letter -/

/-- The last cell of the column for a single character, once that character is matched. -/
theorem columnLoop_single (c : UInt8) (rest : Text) {x : Nat} {column : Nat → Nat}
    (hx : column 1 + 2 = x) : columnLoop [c] rest x column 1 = column 1 + rest.length := by
  induction rest generalizing x column with
  | nil => rfl
  | cons d rest ih =>
    unfold columnLoop rowLoop rowLoop
    rw [ih]
    · simp only [Function.update_self, ne_eq, Nat.one_ne_zero, not_false_eq_true,
        Function.update_of_ne, Nat.sub_self, min3, List.length_cons]
      split_ifs <;> omega
    · simp only [Function.update_self, ne_eq, Nat.one_ne_zero, not_false_eq_true,
        Function.update_of_ne, Nat.sub_self, min3]
      split_ifs <;> omega

/-- A word that begins with a letter is as far from it as it has letters after the first. -/
theorem calcLevenshtein_letter (column : Nat → Nat) (c : UInt8) (rest : Text) :
    calcLevenshtein column [c] (c :: rest) = rest.length := by
  unfold calcLevenshtein columnLoop
  simp only [List.length_singleton]
  rw [columnLoop_single]
  · simp [rowLoop, initLoop, min3]
  · simp [rowLoop, initLoop, min3]

theorem cString_of_ascii {w : Text} (h : Ascii w) : cString w = w := by
  unfold cString
  apply List.takeWhile_eq_self_iff.mpr
  intro c hc
  have hpos := (h c hc).1
  simpa using hpos.ne'

/-- How many stored words of one length begin with a letter. -/
def sharing (words : List Text) (c : UInt8) (n : Nat) : Nat :=
  (words.map lower).dedup.countP fun w => w.head? = some c ∧ w.length = n

/-- What `FuzzyFind` relies on when it looks for a letter: the words have lengths that fit in a
key, and so have the ties. -/
structure Searchable (words : List Text) : Prop where
  plain : ∀ w ∈ words, Plain w
  length_lt : ∀ w ∈ words, w.length < 2 ^ 19
  sharing_le : ∀ c n, sharing words c n ≤ 4096

theorem scoreOf_letter (columns : Text → Nat → Nat) {c : UInt8} {v : Text} (h : Ascii (c :: v)) :
    scoreOf columns [c] [c] v = v.length := by
  unfold scoreOf
  rw [List.singleton_append, cString_of_ascii h]
  exact calcLevenshtein_letter _ c v

/-- What goes on after a letter has keys of its own. -/
theorem keyed_letter {words : List Text} (hwords : Searchable words) (columns : Text → Nat → Nat)
    {c : UInt8} {vs : List Text} (hnodup : vs.Nodup)
    (hvs : ∀ v ∈ vs, v ≠ [] ∧ Stored words (c :: v)) : Keyed (scoreOf columns [c] [c]) vs := by
  have hascii : ∀ v ∈ vs, Ascii (c :: v) := by
    intro v hv
    obtain ⟨w, hw, heq⟩ := (hvs v hv).2
    rw [heq]
    exact ascii_lower (hwords.plain w hw).2
  refine ⟨fun v hv => ?_, fun v hv => ?_, fun x => ?_⟩
  · rw [scoreOf_letter columns (hascii v hv)]
    have hpos := List.length_pos_iff.mpr (hvs v hv).1
    omega
  · obtain ⟨w, hw, heq⟩ := (hvs v hv).2
    have hlen := congrArg List.length heq
    have hlt := hwords.length_lt w hw
    rw [scoreOf_letter columns (hascii v hv)]
    simp only [List.length_cons, lower, List.length_map] at hlen
    omega
  · -- with the letter in front, the words of a score are stored words of one length
    apply le_trans _ (hwords.sharing_le c (x.toNat + 1))
    unfold tally sharing
    rw [List.countP_eq_length_filter, List.countP_eq_length_filter,
      ← List.length_map (f := fun v : Text => c :: v)]
    apply List.Subperm.length_le
    apply List.Nodup.subperm
    · exact (hnodup.filter _).map fun _ _ h => (List.cons.inj h).2
    · intro w hw
      obtain ⟨v, hv, rfl⟩ := List.mem_map.mp hw
      obtain ⟨hmem, hscore⟩ := List.mem_filter.mp hv
      obtain ⟨u, hu, heq⟩ := (hvs v hmem).2
      rw [decide_eq_true_eq, scoreOf_letter columns (hascii v hmem)] at hscore
      apply List.mem_filter.mpr
      refine ⟨List.mem_dedup.mpr (List.mem_map.mpr ⟨u, hu, heq.symm⟩), ?_⟩
      simp only [List.head?_cons, List.length_cons, decide_eq_true_eq, true_and]
      omega

section
variable {T : Trie} {t : Tst UInt8} {words : List Text} (hbuilt : Built T t words) (c : UInt8)
include hbuilt

/-- The words below a letter are what the stored words go on with after it. -/
theorem mem_words_below (v : Text) :
    v ∈ (t.stem c []).center.words ↔ v ≠ [] ∧ Stored words (c :: v) := by
  have hord := Tst.ordered_center (Tst.ordered_stem hbuilt.ordered c [])
  cases v with
  | nil => simp [Tst.nil_notMem_words]
  | cons d v =>
    have hmore : t.find c (d :: v) = (t.stem c []).center.find d v := Tst.find_append t c [] d v
    rw [Tst.mem_words hord, ← hbuilt.finds, hmore]
    simp

/-- A stored word that begins with a letter is that letter, or goes on below it. -/
theorem stored_letter_iff (x : Text) : (Stored words x ∧ x.head? = some c) ↔
    (t.find c [] = true ∧ x = [c]) ∨ ∃ v ∈ (t.stem c []).center.words, x = [c] ++ v := by
  simp only [mem_words_below hbuilt, List.singleton_append, hbuilt.finds]
  constructor
  · rintro ⟨hstored, hhead⟩
    cases x with
    | nil => cases hhead
    | cons d v =>
      cases hhead
      cases v with
      | nil => exact Or.inl ⟨hstored, rfl⟩
      | cons e v => exact Or.inr ⟨e :: v, ⟨List.cons_ne_nil _ _, hstored⟩, rfl⟩
  · rintro (⟨hstored, rfl⟩ | ⟨v, ⟨-, hstored⟩, rfl⟩)
    · exact ⟨hstored, rfl⟩
    · exact ⟨hstored, rfl⟩

/-- `ExtrapolateAll` from the node of a letter commits the words below it. -/
theorem extrapolateAll_letter (columns : Text → Nat → Nat) {fuel : Nat}
    (hfuel : (words.map List.length).sum < fuel) {a : Nat} (ha : (t.stem c []).head = some a)
    (start : Std.TreeMap Int Text) :
    extrapolateAll T columns 0 fuel a start [c] [c] =
      .ok ((t.stem c []).center.words.foldl (addWord columns [c] [c]) ⟨start, ∅, [], 0⟩) := by
  have hsub := Tst.addrs_stem_sublist t c []
  obtain ⟨parent, hrep⟩ := hbuilt.rep.stem c []
  generalize t.stem c [] = stem at *
  cases stem with
  | nil => cases ha
  | node a' key terminator l c' r =>
    cases ha
    obtain ⟨hheap, hsize, hnot⟩ := hbuilt.below_lt hrep hsub
    obtain ⟨⟨upper, hnode⟩, -, hbelow, -⟩ := hrep
    unfold extrapolateAll
    rw [Trie.node_eq_ok.mpr hnode, bind_ok, extrapolate_words columns [c] [c] hbelow
      (climbs_root T a) hnot (by omega) (by simp only [List.length_nil]; omega) rfl]
    simp [Tst.center]

end

/-- The search for a letter collects the stored words that begin with it. -/
theorem fuzzyFind_letter {T : Trie} {t : Tst UInt8} {words : List Text} (hbuilt : Built T t words)
    (hwords : Searchable words) (columns : Text → Nat → Nat) {fuel : Nat}
    (hfuel : (words.map List.length).sum < fuel) {c : UInt8} (hc : Ascii [c]) :
    ∃ m, fuzzyFind T columns 0 fuel [c] T.root ∅ = .ok m ∧
      ∀ x : Text, (∃ k : Int, m[k]? = some x) ↔ Stored words x ∧ x.head? = some c := by
  have hfind := find_refines hbuilt.rep hc (hbuilt.size.trans_lt hfuel)
  have hends := Tst.ends_stem t c []
  have hkeyed : Keyed (scoreOf columns [c] [c]) (t.stem c []).center.words :=
    keyed_letter hwords columns
      (Tst.nodup_words (Tst.ordered_center (Tst.ordered_stem hbuilt.ordered c [])))
      fun v hv => (mem_words_below hbuilt c v).mp hv
  -- what the traversal adds to the map it starts with
  have hvalues : ∀ start : Std.TreeMap Int Text, (∀ k ∈ start, k = 0) → ∀ x : Text,
      (∃ k : Int, ((t.stem c []).center.words.foldl (addWord columns [c] [c])
          ⟨start, ∅, [], 0⟩).words[k]? = some x) ↔
        (∃ k : Int, start[k]? = some x) ∨ ∃ v ∈ (t.stem c []).center.words, x = [c] ++ v :=
    fun start hstart => (foldl_addWord_tallied columns [c] [c] hstart
      (tallied_start _ [c] start) (by simpa using hkeyed)).values
  have hall := fun a => extrapolateAll_letter hbuilt c columns hfuel (a := a)
  simp only [stored_letter_iff hbuilt]
  unfold fuzzyFind stemLoop stemLoop
  simp only [List.length_singleton, List.take_succ_cons, List.take_zero, Nat.zero_add]
  rw [c_str, hbuilt.root, hfind]
  cases hfound : t.find c [] with
  | false =>
    cases hhead : (t.stem c []).head with
    | none =>
      refine ⟨∅, rfl, fun x => ?_⟩
      simp [Tst.head_eq_none.mp hhead, Tst.center, Tst.words]
    | some a =>
      refine ⟨_, by simp [hall a hhead]; rfl, fun x => ?_⟩
      rw [hvalues ∅ (by simp)]
      simp
  | true =>
    cases hhead : (t.stem c []).head with
    | none =>
      rw [Tst.head_eq_none.mp hhead, hfound] at hends
      cases hends
    | some a =>
      refine ⟨_, by simp [hall a hhead]; rfl, fun x => ?_⟩
      rw [hvalues _ (by simp [Std.TreeMap.mem_insert]), values_insert (by simp)]
      simp

end anagram
