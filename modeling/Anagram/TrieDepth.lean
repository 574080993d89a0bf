-- How deep the recursions over the trie go (ternary_tree.cc). The program has one
-- frame on the stack for each node on a way down, so the depth is bounded by the
-- height of the tree, which the number of the words and their order do not change.
import Anagram.FuzzyFindLaws
import Anagram.TrieNodes
import Anagram.General.TrieHeight

open search_trie outcome

namespace anagram

/-! ## Calls that need no more fuel -/

theorem exists_eq_succ {n f : Nat} (h : n < f) : ∃ g, f = g + 1 :=
  Nat.exists_eq_succ_of_ne_zero (Nat.ne_zero_of_lt h)

/-- From the height of the tree on, more fuel changes nothing for `Find`. -/
theorem find_fuel {T : Trie} {parent : Option Nat} {t : Tst UInt8} (hrep : Rep T.heap parent t)
    (word : List UInt8) {f F : Nat} (hf : t.height < f) (hF : t.height < F) :
    T.find f word t.head = T.find F word t.head := by
  induction t generalizing parent word f F with
  | nil =>
    obtain ⟨f, rfl⟩ := exists_eq_succ hf
    obtain ⟨F, rfl⟩ := exists_eq_succ hF
    rfl
  | node a key terminator l c r ihl ihc ihr =>
    obtain ⟨f, rfl⟩ := exists_eq_succ hf
    obtain ⟨F, rfl⟩ := exists_eq_succ hF
    obtain ⟨⟨upper, hnode⟩, hl, hc, hr⟩ := hrep
    simp only [Tst.height] at hf hF
    have hleft := ihl hl word (f := f) (F := F) (by omega) (by omega)
    have hcenter := ihc hc (word.drop 1) (f := f) (F := F) (by omega) (by omega)
    have hright := ihr hr word (f := f) (F := F) (by omega) (by omega)
    rw [Tst.head_node]
    unfold Trie.find
    simp only [Trie.node_eq_ok.mpr hnode, bind_ok, hleft, hcenter, hright]

theorem extrapolate_fuel {T : Trie} (columns : Text → Nat → Nat) (root : Nat) (stem word : Text)
    (max_diff : Int) {parent : Option Nat} {t : Tst UInt8} (hrep : Rep T.heap parent t)
    {f F : Nat} (hf : t.height < f) (hF : t.height < F) (s : Extrapolation) :
    extrapolate T columns root stem word max_diff f t.head s =
      extrapolate T columns root stem word max_diff F t.head s := by
  induction t generalizing parent f F s with
  | nil =>
    obtain ⟨f, rfl⟩ := exists_eq_succ hf
    obtain ⟨F, rfl⟩ := exists_eq_succ hF
    rfl
  | node a key terminator l c r ihl ihc ihr =>
    obtain ⟨f, rfl⟩ := exists_eq_succ hf
    obtain ⟨F, rfl⟩ := exists_eq_succ hF
    obtain ⟨⟨upper, hnode⟩, hl, hc, hr⟩ := hrep
    simp only [Tst.height] at hf hF
    have hleft := ihl hl (f := f) (F := F) (by omega) (by omega)
    have hcenter := ihc hc (f := f) (F := F) (by omega) (by omega)
    have hright := ihr hr (f := f) (F := F) (by omega) (by omega)
    rw [Tst.head_node]
    unfold extrapolate
    simp only [Trie.node_eq_ok.mpr hnode, bind_ok, hleft, hcenter, hright]

/-- A call of `Insert` at a node needs what the call that it makes for a child needs. -/
theorem insertAt_congr {insert insert' : List UInt8 → Slot → Trie → Run (Nat × Trie)} {T : Trie}
    {slot : Slot} {a : Nat} {n : TNode} {d : UInt8} {rest : Text}
    (hslot : T.load slot = .ok (some a)) (hnode : T.heap[a]? = some n)
    (hbytes : Insertable (d :: rest))
    (hside : ∀ side ∈ [Slot.left a, .right a], tolower d ≠ n.key_ →
      insert (d :: rest ++ [0]) side T = insert' (d :: rest ++ [0]) side T)
    (hcenter : ∀ e rest', rest = e :: rest' →
      insert (e :: rest' ++ [0]) (.center a) T = insert' (e :: rest' ++ [0]) (.center a) T) :
    Trie.insertAt insert (d :: rest ++ [0]) d slot T =
      Trie.insertAt insert' (d :: rest ++ [0]) d slot T := by
  have hd : tolowerChar d = (tolower d).toNat := tolowerChar_of_ne (hbytes d (by simp)).2
  unfold Trie.insertAt
  rw [deref_eq_ok hslot]
  simp only [bind_ok, Trie.node_eq_ok.mpr hnode, hd, Nat.cast_lt, gt_iff_lt,
    ← UInt8.lt_iff_toNat_lt]
  split_ifs with hlt hgt
  · rw [hside _ (by simp) (ne_of_lt hlt)]
  · rw [hside _ (by simp) (ne_of_gt hgt)]
  · cases rest with
    | nil => rfl
    | cons e rest =>
      rw [charAt_second]
      simp only [bind_ok, List.cons_append, List.drop_succ_cons, List.drop_zero]
      rw [← List.cons_append, hcenter e rest rfl]

/-- From the height of the tree and the length of the word on, more fuel changes nothing for
`Insert`. -/
theorem insert_fuel {T : Trie} {slot : Slot} {parent : Option Nat} {t : Tst UInt8} {d : UInt8}
    {rest : Text} (hrep : Rep T.heap parent t) (hload : T.load slot = .ok t.head)
    (hbytes : Insertable (d :: rest)) {f F : Nat} (hf : t.height + rest.length < f)
    (hF : t.height + rest.length < F) :
    Trie.insert f (d :: rest ++ [0]) slot T = Trie.insert F (d :: rest ++ [0]) slot T := by
  induction f generalizing F T slot parent t d rest with
  | zero => exact absurd hf (Nat.not_lt_zero _)
  | succ f ih =>
    obtain ⟨F, rfl⟩ := exists_eq_succ hF
    unfold Trie.insert
    simp only [charAt_head, bind_ok]
    cases t with
    | nil =>
      obtain ⟨T₁, hensure, hslot, hleaf, -⟩ := ensureNode_nil hload d
      obtain ⟨⟨upper, hnode⟩, -, -, -⟩ := hleaf
      have hat : Trie.insertAt (Trie.insert f) (d :: rest ++ [0]) d slot T₁ =
          Trie.insertAt (Trie.insert F) (d :: rest ++ [0]) d slot T₁ := by
        apply insertAt_congr hslot hnode hbytes
        · exact fun side _ hne => absurd rfl hne
        · rintro e rest' rfl
          have hempty : Rep T₁.heap none .nil := trivial
          have hbelow : (Tst.nil : Tst UInt8).height = 0 := rfl
          simp only [List.length_cons] at hf hF
          exact ih hempty (Trie.load_center hnode)
            (fun x hx => hbytes x (List.mem_cons_of_mem _ hx)) (by omega) (by omega)
      simp only [hensure, bind_ok, hat]
    | node a key terminator l c r =>
      obtain ⟨⟨upper, hnode⟩, hl, hc, hr⟩ := hrep
      simp only [Tst.height] at hf hF
      have hat : Trie.insertAt (Trie.insert f) (d :: rest ++ [0]) d slot T =
          Trie.insertAt (Trie.insert F) (d :: rest ++ [0]) d slot T := by
        apply insertAt_congr hload hnode hbytes
        · intro side hside _
          simp only [List.mem_cons, List.not_mem_nil, or_false] at hside
          rcases hside with rfl | rfl
          · exact ih hl (Trie.load_left hnode) hbytes (by omega) (by omega)
          · exact ih hr (Trie.load_right hnode) hbytes (by omega) (by omega)
        · rintro e rest' rfl
          simp only [List.length_cons] at hf hF
          exact ih hc (Trie.load_center hnode) (fun x hx => hbytes x (List.mem_cons_of_mem _ hx))
            (by omega) (by omega)
      simp only [Trie.ensureNode_node hload d, bind_ok, hat]

/-! ## The depth of a trie -/

/-- The letters of the stored words. -/
def alphabet (words : List Text) : Finset UInt8 := (words.flatMap lower).toFinset

theorem letters_subset {done words : List Text} (h : done ⊆ words) :
    alphabet done ⊆ alphabet words := by
  intro c hc
  simp only [alphabet, List.mem_toFinset, List.mem_flatMap] at hc ⊢
  obtain ⟨w, hw, hmem⟩ := hc
  exact ⟨w, h hw, hmem⟩

theorem height_stemAt_le (t : Tst UInt8) (p : Text) : (stemAt t p).center.height ≤ t.height := by
  apply (Tst.height_center_le _).trans
  cases p with
  | nil => exact Nat.zero_le _
  | cons d rest => exact Tst.height_stem_le t d rest

section
variable {T : Trie} {t : Tst UInt8} {words : List Text} (hbuilt : Built T t words)
include hbuilt

/-- The height of the tree of some words does not depend on how many they are. -/
theorem Built.height_le {L : Nat} (hlen : ∀ w ∈ words, w.length ≤ L) :
    t.height ≤ (alphabet words).card * L := by
  apply Tst.height_le hbuilt.ordered hbuilt.live
  intro v hv
  cases v with
  | nil => exact absurd hv (Tst.nil_notMem_words t)
  | cons k v =>
    obtain ⟨w, hw, heq⟩ := (hbuilt.finds k v).mp ((Tst.mem_words hbuilt.ordered).mp hv)
    rw [heq]
    refine ⟨?_, fun c hc => ?_⟩
    · rw [lower, List.length_map]
      exact hlen w hw
    · rw [alphabet, List.mem_toFinset, List.mem_flatMap]
      exact ⟨w, hw, hc⟩

variable {f F : Nat} (hf : t.height < f) (hF : t.height < F)
include hf hF

theorem stemLoop_fuel (query : Text) (n : Nat) :
    stemLoop T f T.root query n = stemLoop T F T.root query n := by
  have hfind : ∀ word, T.find f word T.root = T.find F word T.root := by
    intro word
    rw [hbuilt.root]
    exact find_fuel hbuilt.rep word hf hF
  induction n with
  | zero => rfl
  | succ n ih =>
    unfold stemLoop
    simp only [hfind, ih]

/-- From the height of the tree on, more fuel changes nothing for `FuzzyFind`. -/
theorem fuzzyFind_fuel (hascii : ∀ x, Stored words x → Ascii x) (columns : Text → Nat → Nat)
    (max_diff_ : Int) {query : Text} (hne : query ≠ []) (hzero : 0 ∉ query)
    (start : Std.TreeMap Int Text) :
    fuzzyFind T columns max_diff_ f query T.root start =
      fuzzyFind T columns max_diff_ F query T.root start := by
  have hfar : t.height < (words.map List.length).sum + 1 :=
    Nat.lt_succ_of_le ((Tst.height_le_size t).trans hbuilt.size)
  have hstem := stemLoop_nearest hbuilt hascii (Nat.lt_succ_self _) hne hzero query.length
  unfold fuzzyFind
  rw [stemLoop_fuel hbuilt hf hfar, stemLoop_fuel hbuilt hF hfar, hstem]
  generalize nearest t query query.length = p
  simp only [bind_ok]
  obtain ⟨⟨parent, hrep⟩, -⟩ := rep_stemAt hbuilt p
  have hheight := height_stemAt_le t p
  generalize stemAt t p = stem at *
  cases stem with
  | nil => rfl
  | node a key terminator l c r =>
    obtain ⟨⟨upper, hnode⟩, -, hc, -⟩ := hrep
    simp only [Tst.head_node, Tst.center] at hheight ⊢
    unfold extrapolateAll
    simp only [Trie.node_eq_ok.mpr hnode, bind_ok]
    rw [extrapolate_fuel columns a p query max_diff_ hc (hheight.trans_lt hf) (hheight.trans_lt hF)]

end

/-- With one frame for each letter in each place of the longest word, all `Insert`s of a dictionary
go through, and more make no difference. -/
theorem insertAll_depth {words : List Text} (hwords : ∀ w ∈ words, Storable w) {L : Nat}
    (hlen : ∀ w ∈ words, w.length ≤ L) :
    ∃ T t, Built T t words ∧ ∀ f, ((alphabet words).card + 1) * L ≤ f →
      Trie.insertAll f words .empty = .ok T := by
  have hstep : ∀ done w rest T, words = done ++ w :: rest →
      ((∃ t, Built T t done) ∧ ∀ f, ((alphabet words).card + 1) * L ≤ f →
        Trie.insertAll f done .empty = .ok T) →
      ∃ T', Trie.insertWord ((words.map List.length).sum + 1) T w = .ok T' ∧
        (∃ t, Built T' t (done ++ [w])) ∧ ∀ f, ((alphabet words).card + 1) * L ≤ f →
          Trie.insertAll f (done ++ [w]) .empty = .ok T' := by
    rintro done w rest T hsplit ⟨⟨t, hbuilt⟩, hrun⟩
    obtain ⟨hne, hbytes⟩ := hwords w (by simp [hsplit])
    cases w with
    | nil => exact absurd rfl hne
    | cons c v =>
      have hsum : (done.map List.length).sum + v.length < (words.map List.length).sum + 1 := by
        simp only [hsplit, List.map_append, List.sum_append, List.map_cons, List.sum_cons,
          List.length_cons]
        omega
      obtain ⟨b, T', hcall, -, hbuilt'⟩ := hbuilt.insert hbytes _ hsum
      have hload : T.load .root = .ok t.head := congrArg Except.ok hbuilt.root
      -- the way down to the word is no longer than the tree is high and the word is long
      have hheight : t.height ≤ (alphabet words).card * L := by
        have hdone : done ⊆ words := by
          rw [hsplit]
          exact List.subset_append_left _ _
        apply (hbuilt.height_le fun u hu => hlen u (hdone hu)).trans
        exact Nat.mul_le_mul_right _ (Finset.card_le_card (letters_subset hdone))
      have hword := hlen (c :: v) (by simp [hsplit])
      rw [List.length_cons] at hword
      have hfar : t.height + v.length < (words.map List.length).sum + 1 := by
        have hsize := (Tst.height_le_size t).trans hbuilt.size
        omega
      refine ⟨T', ?_, ⟨_, hbuilt'⟩, fun f hf => ?_⟩
      · unfold Trie.insertWord
        rw [c_str, hcall]
        rfl
      · rw [Nat.succ_mul] at hf
        unfold Trie.insertAll
        rw [List.foldlM_append]
        have hbefore := hrun f (by rw [Nat.succ_mul]; exact hf)
        unfold Trie.insertAll at hbefore
        rw [hbefore, bind_ok, List.foldlM_cons, Trie.insertWord, c_str,
          insert_fuel hbuilt.rep hload hbytes (by omega) hfar, hcall]
        rfl
  obtain ⟨T, -, ⟨t, hbuilt⟩, hrun⟩ :=
    foldlM_ok words hstep (s := .empty) ⟨⟨.nil, built_empty⟩, fun f _ => rfl⟩
  exact ⟨T, t, hbuilt, hrun⟩

/-- However many words a dictionary has, and in whatever order, `Insert`, `Find`, `FuzzyFind` and
the destructor go no deeper than the number of its letters and one, times the length of its
longest word: one frame more is enough, and more make no difference. -/
theorem the_recursions_go_no_deeper_with_more_words (words : List Text)
    (hplain : ∀ w ∈ words, Plain w) (L : Nat) (hlen : ∀ w ∈ words, w.length ≤ L) (depth : Nat)
    (hdepth : ((alphabet words).card + 1) * L < depth) :
    ∃ T, (∀ f, depth ≤ f → Trie.insertAll f words .empty = .ok T) ∧
      (∀ query, query ≠ [] → 0 ∉ query →
        (∃ r, ∀ f, depth ≤ f → T.find f (c_str query) T.root = .ok r) ∧
        ∀ columns max_diff_ start, ∃ m, ∀ f, depth ≤ f →
          fuzzyFind T columns max_diff_ f query T.root start = .ok m) ∧
      ∃ freed, ∀ f, depth ≤ f → T.destroy f = .ok freed := by
  obtain ⟨T, t, hbuilt, hinsert⟩ := insertAll_depth (fun w hw => (hplain w hw).storable) hlen
  have hascii := ascii_of_stored hplain
  have hheight : ∀ f, depth ≤ f → t.height < f := by
    intro f hf
    have hle := hbuilt.height_le hlen
    rw [Nat.succ_mul] at hdepth
    omega
  have hfar : t.height < (words.map List.length).sum + 1 :=
    Nat.lt_succ_of_le ((Tst.height_le_size t).trans hbuilt.size)
  refine ⟨T, fun f hf => hinsert f (by omega), fun query hne hzero => ⟨?_, ?_⟩, ?_⟩
  · refine ⟨((stemAt t query).ends, (stemAt t query).head), fun f hf => ?_⟩
    rw [← find_stemAt hbuilt hascii (Nat.lt_succ_self _) hne hzero, hbuilt.root]
    exact find_fuel hbuilt.rep _ (hheight f hf) hfar
  · intro columns max_diff_ start
    obtain ⟨m, p, -, hrun⟩ := fuzzyFindLogged_nearest hbuilt hascii columns max_diff_
      (Nat.lt_succ_self _) hne hzero start
    have herase := fuzzyFindLogged_erase T columns max_diff_ (words.map List.length).sum.succ query
      T.root start
    rw [hrun] at herase
    refine ⟨m, fun f hf => ?_⟩
    rw [fuzzyFind_fuel hbuilt (hheight f hf) hfar hascii columns max_diff_ hne hzero, ← herase]
    rfl
  · refine ⟨[] ++ childrenFirst t, fun f hf => ?_⟩
    unfold Trie.destroy
    rw [hbuilt.root]
    exact deleteTree_frees hbuilt.rep hbuilt.nodup (List.disjoint_nil_left _) (hheight f hf)

theorem the_recursions_over_Ab_a_and_b_go_no_deeper_than_six :
    ∃ T, (∀ f, 7 ≤ f → Trie.insertAll f [bytes "Ab", bytes "a", bytes "b"] .empty = .ok T) ∧
      (∃ r, ∀ f, 7 ≤ f → T.find f (c_str (bytes "ab")) T.root = .ok r) ∧
      ∃ freed, ∀ f, 7 ≤ f → T.destroy f = .ok freed := by
  obtain ⟨T, hinsert, hlookup, hdestroy⟩ :=
    the_recursions_go_no_deeper_with_more_words [bytes "Ab", bytes "a", bytes "b"]
      (by decide +kernel) 2 (by decide +kernel) 7 (by decide +kernel)
  exact ⟨T, hinsert, (hlookup (bytes "ab") (by decide) (by decide)).1, hdestroy⟩

end anagram
