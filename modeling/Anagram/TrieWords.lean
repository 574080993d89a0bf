-- The words of a trie. A trie built by `Insert` from a list of words is the
-- tree with these words in lower case, and `Find` is the search in that tree.
import Anagram.TrieInsert

open search_trie outcome

namespace anagram

theorem schar_ascii {c : UInt8} (h : c < 128) : schar c = c.toNat := by
  have hlt : c.toNat < 128 := UInt8.lt_iff_toNat_lt.mp h
  have hmod := Int.bmod_eq_of_le (n := (c.toNat : Int)) (m := 256) (by omega) (by omega)
  unfold schar
  rw [Int8.toInt, UInt8.toBitVec_toInt8, BitVec.toInt_eq_toNat_bmod]
  exact hmod

/-! ## Find -/

/-- `Find` from the head of a tree is the search in the tree, and marks the node that the text
ends at. -/
theorem find_refines {T : Trie} {parent : Option Nat} {t : Tst UInt8} (hrep : Rep T.heap parent t)
    {d : UInt8} {rest : Text} (hascii : Ascii (d :: rest)) {fuel : Nat}
    (hfuel : t.addrs.length < fuel) :
    T.find fuel (d :: rest ++ [0]) t.head = .ok (t.find d rest, (t.stem d rest).head) := by
  induction t generalizing fuel parent d rest with
  | nil =>
    cases fuel with
    | zero => exact absurd hfuel (Nat.not_lt_zero _)
    | succ fuel => rfl
  | node a key terminator l c r ihl ihc ihr =>
    cases fuel with
    | zero => exact absurd hfuel (Nat.not_lt_zero _)
    | succ fuel =>
      obtain ⟨⟨upper, hnode⟩, hl, hc, hr⟩ := hrep
      simp only [Tst.addrs, List.length_cons, List.length_append] at hfuel
      have hd : schar d = d.toNat := schar_ascii (hascii d (by simp)).2
      rw [Tst.head_node]
      unfold Trie.find Tst.find Tst.stem
      rw [Trie.node_eq_ok.mpr hnode]
      simp only [bind_ok, charAt_head, hd, Nat.cast_lt, gt_iff_lt, ← UInt8.lt_iff_toNat_lt]
      split_ifs
      · exact ihl hl hascii (by omega)
      · exact ihr hr hascii (by omega)
      · cases rest with
        | nil => rfl
        | cons e rest =>
          have hpos : 0 < e := (hascii e (by simp)).1
          rw [charAt_second, bind_ok, if_neg hpos.ne']
          exact ihc hc (fun x hx => hascii x (List.mem_cons_of_mem _ hx)) (by omega)

/-! ## Tries built by Insert -/

def lower (w : Text) : Text := w.map tolower

theorem ascii_lower {w : Text} (h : Ascii w) : Ascii (lower w) := by
  intro d hd
  obtain ⟨c, hc, rfl⟩ := List.mem_map.mp hd
  have hrange := h c hc
  simp only [UInt8.lt_iff_toNat_lt, UInt8.reduceToNat, toNat_tolower] at hrange ⊢
  split_ifs <;> omega

/-- The words that the laws are about: not empty, and over the bytes 1..127. -/
def Plain (w : Text) : Prop := w ≠ [] ∧ Ascii w

instance (w : Text) : Decidable (Plain w) := inferInstanceAs (Decidable (_ ∧ _))

/-- The words that `Insert` can take. -/
def Storable (w : Text) : Prop := w ≠ [] ∧ Insertable w

theorem Plain.storable {w : Text} (h : Plain w) : Storable w := ⟨h.1, h.2.insertable⟩

/-- The words of a trie, which are the inserted ones in lower case. -/
def Stored (words : List Text) (x : Text) : Prop := ∃ w ∈ words, x = lower w

/-- The trie has the tree of the words: an ordered tree that finds each in lower case. -/
structure Built (T : Trie) (t : Tst UInt8) (words : List Text) : Prop where
  rep : Rep T.heap none t
  root : T.root = t.head
  nodup : t.addrs.Nodup
  ordered : t.Ordered
  live : t.Live
  size : t.addrs.length ≤ (words.map List.length).sum
  finds : ∀ d v, t.find d v = true ↔ Stored words (d :: v)

theorem built_empty : Built .empty .nil [] := by
  refine ⟨trivial, rfl, List.nodup_nil, trivial, trivial, le_rfl, fun d v => ?_⟩
  simp [Tst.find, Stored]

/-- Below a node of the tree there are fewer nodes than the heap has, and than the words have
letters. The node itself is not among them. -/
theorem Built.below_lt {T : Trie} {t : Tst UInt8} {words : List Text} (h : Built T t words)
    {parent : Option Nat} {a : Nat} {key : UInt8} {terminator : Bool} {l c r : Tst UInt8}
    (hrep : Rep T.heap parent (.node a key terminator l c r))
    (hsub : (Tst.node a key terminator l c r).addrs.Sublist t.addrs) :
    c.addrs.length < T.heap.length ∧ c.addrs.length < (words.map List.length).sum ∧
      a ∉ c.addrs := by
  have hnodup := hsub.nodup h.nodup
  have hheap : (Tst.node a key terminator l c r).addrs.length ≤ T.heap.length := by
    have hrange := hnodup.subperm fun x hx => List.mem_range.mpr (addrs_lt hrep x hx)
    simpa using hrange.length_le
  have hsize := hsub.length_le.trans h.size
  simp only [Tst.addrs, List.length_cons, List.length_append] at hheap hsize
  exact ⟨by omega, by omega, (Tst.apart_of_nodup hnodup).head_center⟩

/-- One more `Insert`. -/
theorem Built.insert {T : Trie} {t : Tst UInt8} {words : List Text} (h : Built T t words)
    {c : UInt8} {rest : Text} (hbytes : Insertable (c :: rest)) (fuel : Nat)
    (hfuel : (words.map List.length).sum + rest.length < fuel) :
    ∃ b T', Trie.insert fuel (c :: rest ++ [0]) .root T = .ok (b, T') ∧
      T'.heap.length + t.addrs.length = T.heap.length + (grow T t c rest).addrs.length ∧
      Built T' (grow T t c rest) (words ++ [c :: rest]) := by
  have hload : T.load .root = .ok t.head := congrArg Except.ok h.root
  have hsize := h.size
  obtain ⟨b, T', hcall, hhead, hgrown⟩ := insert_inserts fuel T .root none t c rest h.rep h.nodup
    hload (fun x hx => by cases hx) hbytes (by omega)
  have hparent : (if t.head = none then none else none) = (none : Option Nat) := ite_self none
  refine ⟨b, T', hcall, by simpa using hgrown.size, hparent ▸ hgrown.rep, hgrown.root, ?_, ?_, ?_,
    ?_, fun d v => ?_⟩
  · exact Tst.nodup_addrs_ins h.nodup (addrs_lt h.rep) _ _
  · exact Tst.ordered_ins h.ordered _ _ _
  · exact Tst.live_ins h.live _ _ _
  · have hmissing := Tst.missing_le t (tolower c) (rest.map tolower)
    have hperm := (Tst.addrs_ins t T.heap.length (tolower c) (rest.map tolower)).length_eq
    simp only [List.length_append, List.length_range', List.length_map] at hmissing hperm
    simp only [List.map_append, List.sum_append, List.map_cons, List.map_nil, List.sum_cons,
      List.sum_nil, List.length_cons]
    unfold grow
    omega
  · rw [grow, Tst.find_ins, Bool.or_eq_true, h.finds]
    simp only [Stored, decide_eq_true_eq, List.mem_append, List.mem_singleton]
    constructor
    · rintro (⟨rfl, rfl⟩ | ⟨w, hw, heq⟩)
      · exact ⟨c :: rest, Or.inr rfl, rfl⟩
      · exact ⟨w, Or.inl hw, heq⟩
    · rintro ⟨w, hw | rfl, heq⟩
      · exact Or.inr ⟨w, hw, heq⟩
      · exact Or.inl (List.cons.inj heq)

/-- One `Insert` after another leads to the trie of all words, whose tree has every node of the
heap. -/
theorem insertAll_fills {words : List Text} (hwords : ∀ w ∈ words, Storable w) {fuel : Nat}
    (hfuel : (words.map List.length).sum < fuel) :
    ∃ T t, Trie.insertAll fuel words .empty = .ok T ∧ Built T t words ∧
      t.addrs.length = T.heap.length := by
  have hstep : ∀ done w rest T, words = done ++ w :: rest →
      (∃ t, Built T t done ∧ t.addrs.length = T.heap.length) →
      ∃ T', Trie.insertWord fuel T w = .ok T' ∧
        ∃ t, Built T' t (done ++ [w]) ∧ t.addrs.length = T'.heap.length := by
    rintro done w rest T hsplit ⟨t, hbuilt, hfull⟩
    obtain ⟨hne, hbytes⟩ := hwords w (by simp [hsplit])
    cases w with
    | nil => exact absurd rfl hne
    | cons c v =>
      simp only [hsplit, List.map_append, List.sum_append, List.map_cons, List.sum_cons,
        List.length_cons] at hfuel
      obtain ⟨b, T', hcall, hsize, hbuilt'⟩ := hbuilt.insert hbytes fuel (by omega)
      refine ⟨T', ?_, _, hbuilt', by omega⟩
      unfold Trie.insertWord
      rw [c_str, hcall]
      rfl
  obtain ⟨T, hrun, t, hbuilt⟩ := foldlM_ok words hstep ⟨.nil, built_empty, rfl⟩
  exact ⟨T, t, hrun, hbuilt⟩

theorem insertAll_built {words : List Text} (hwords : ∀ w ∈ words, Storable w) {fuel : Nat}
    (hfuel : (words.map List.length).sum < fuel) :
    ∃ T t, Trie.insertAll fuel words .empty = .ok T ∧ Built T t words := by
  obtain ⟨T, t, hrun, hbuilt, -⟩ := insertAll_fills hwords hfuel
  exact ⟨T, t, hrun, hbuilt⟩

/-! ## Set semantics -/

/-- `Find` in the trie of some words. -/
def lookup (fuel : Nat) (words : List Text) (q : Text) : Run Bool := do
  let T ← Trie.insertAll fuel words .empty
  let (found, _) ← T.find fuel (c_str q) T.root
  .ok found

theorem lookup_eq {words : List Text} (hplain : ∀ w ∈ words, Plain w) {q : Text} (hq : Plain q)
    {fuel : Nat} (hfuel : (words.map List.length).sum < fuel) :
    lookup fuel words q = .ok (decide (∃ w ∈ words, q = lower w)) := by
  obtain ⟨T, t, hinsert, hbuilt⟩ := insertAll_built (fun w hw => (hplain w hw).storable) hfuel
  obtain ⟨hne, hascii⟩ := hq
  cases q with
  | nil => exact absurd rfl hne
  | cons d v =>
    have hfind := find_refines hbuilt.rep hascii (hbuilt.size.trans_lt hfuel)
    unfold lookup
    rw [hinsert, bind_ok, hbuilt.root, c_str, hfind]
    simp only [bind_ok]
    congr 1
    rw [Bool.eq_iff_iff, decide_eq_true_eq]
    exact hbuilt.finds d v

theorem isupper_tolower (c : UInt8) : isupper (tolower c) = false := by
  unfold isupper
  simp only [UInt8.le_iff_toNat_le, UInt8.reduceToNat, toNat_tolower, decide_eq_false_iff_not]
  split_ifs <;> omega

/-- The trie is a set of words in lower case. `Find` gives true for a text exactly when it is
the lower case form of an inserted word. So the order of the words and repetitions make no
difference, and a text with an uppercase letter is never found. -/
theorem find_finds_exactly_the_inserted_words (words : List Text)
    (hplain : ∀ w ∈ words, Plain w) (q : Text) (hq : Plain q) (fuel : Nat)
    (hfuel : (words.map List.length).sum < fuel) :
    (∃ found, lookup fuel words q = .ok found ∧ (found = true ↔ ∃ w ∈ words, q = lower w)) ∧
    (∀ words' : List Text, (∀ w, w ∈ words' ↔ w ∈ words) →
      ∀ fuel', (words'.map List.length).sum < fuel' →
        lookup fuel' words' q = lookup fuel words q) ∧
    (q.any isupper = true → lookup fuel words q = .ok false) := by
  rw [lookup_eq hplain hq hfuel]
  refine ⟨⟨_, rfl, by rw [decide_eq_true_eq]⟩, ?_, ?_⟩
  · intro words' hsame fuel' hfuel'
    rw [lookup_eq (fun w hw => hplain w ((hsame w).mp hw)) hq hfuel']
    simp only [hsame]
  · intro hupper
    congr 1
    rw [decide_eq_false_iff_not]
    rintro ⟨w, -, rfl⟩
    simp [lower, isupper_tolower] at hupper

theorem find_finds_bab_where_Bab_was_inserted :
    lookup 20 [bytes "Bab", bytes "ba"] (bytes "bab") = .ok true := by
  obtain ⟨⟨found, hrun, hfound⟩, -, -⟩ :=
    find_finds_exactly_the_inserted_words [bytes "Bab", bytes "ba"] (by decide +kernel)
      (bytes "bab") (by decide +kernel) 20 (by decide)
  rw [hrun, hfound.mpr ⟨bytes "Bab", by simp, by decide +kernel⟩]

end anagram
