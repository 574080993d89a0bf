-- Bytes from 128 on in the trie, where a plain char is negative. `Insert`
-- compares what `tolower` makes of the char with the key, and `Find` compares
-- the char itself, so the two part. For `EOF`, which is the byte 255, `Insert`
-- goes to the left for ever.
import Anagram.TrieWords

open search_trie outcome

namespace anagram

/-! ## Find -/

theorem schar_high {c : UInt8} (h : 128 ≤ c) : schar c < 0 := by
  have hge : 128 ≤ c.toNat := UInt8.le_iff_toNat_le.mp h
  have hlt := c.toNat_lt
  unfold schar
  rw [Int8.toInt, UInt8.toBitVec_toInt8, BitVec.toInt_eq_toNat_bmod, Int.bmod_def]
  simp only [UInt8.toNat_toBitVec]
  omega

/-- A text with a byte from 128 on is not found: at that byte, `Find` goes to the left to the
end, and marks no node. -/
theorem find_high {T : Trie} {parent : Option Nat} {t : Tst UInt8} (hrep : Rep T.heap parent t)
    {d : UInt8} {rest : Text} (hzero : 0 ∉ d :: rest) (hhigh : ∃ c ∈ d :: rest, 128 ≤ c)
    {fuel : Nat} (hfuel : t.addrs.length < fuel) :
    T.find fuel (d :: rest ++ [0]) t.head = .ok (false, none) := by
  induction t generalizing fuel parent d rest with
  | nil =>
    cases fuel with
    | zero => exact absurd hfuel (Nat.not_lt_zero _)
    | succ fuel => rfl
  | node a key terminator l c r ihl ihc ihr =>
    cases fuel with
    | zero => exact absurd hfuel (Nat.not_lt_zero _)
    | succ fuel =>
      obtain ⟨⟨upper, hnode⟩, hl, hc, hr⟩ := hrep
      simp only [Tst.addrs, List.length_cons, List.length_append] at hfuel
      rw [Tst.head_node]
      unfold Trie.find
      rw [Trie.node_eq_ok.mpr hnode]
      simp only [bind_ok, charAt_head]
      split_ifs with hlt hgt
      · exact ihl hl hzero hhigh (by omega)
      · exact ihr hr hzero hhigh (by omega)
      · -- the byte is that of the key, so it is not a high one
        have hlow : ¬ 128 ≤ d := by
          intro hd
          have hneg := schar_high hd
          omega
        obtain ⟨e, he, hehigh⟩ := hhigh
        rcases List.mem_cons.mp he with rfl | he
        · exact absurd hehigh hlow
        cases rest with
        | nil => cases he
        | cons x rest =>
          have hx : x ≠ 0 := by
            rintro rfl
            exact hzero (by simp)
          rw [charAt_second, bind_ok, if_neg hx]
          exact ihc hc (fun h => hzero (List.mem_cons_of_mem _ h)) ⟨e, he, hehigh⟩ (by omega)

theorem not_ascii {w : Text} (hzero : 0 ∉ w) (h : ¬ Ascii w) : ∃ c ∈ w, 128 ≤ c := by
  by_contra hnone
  apply h
  intro c hc
  refine ⟨?_, ?_⟩
  · rw [UInt8.pos_iff_ne_zero]
    rintro rfl
    exact hzero hc
  · rw [← UInt8.not_le]
    exact fun hle => hnone ⟨c, hc, hle⟩

theorem Insertable.zero_notMem {w : Text} (h : Insertable w) : 0 ∉ w := fun hmem => (h 0 hmem).1 rfl

theorem zero_notMem_lower {w : Text} (h : 0 ∉ w) : 0 ∉ lower w := by
  intro hmem
  obtain ⟨c, hc, heq⟩ := List.mem_map.mp hmem
  have hlow := congrArg UInt8.toNat heq
  simp only [toNat_tolower, UInt8.reduceToNat] at hlow
  split_ifs at hlow
  have hzero : c = 0 := UInt8.toNat_inj.mp hlow
  exact h (hzero ▸ hc)

theorem tolower_high {c : UInt8} : 128 ≤ tolower c ↔ 128 ≤ c := by
  simp only [UInt8.le_iff_toNat_le, UInt8.reduceToNat, toNat_tolower]
  split_ifs <;> omega

/-! ## Insert and Find -/

/-- After its insertion, a word over the bytes 1..254 is found in lower case exactly when it has
no byte from 128 on. -/
theorem an_inserted_word_is_found_iff_it_is_ascii (words : List Text)
    (hwords : ∀ w ∈ words, Storable w) (word : Text) (hword : Storable word) (fuel : Nat)
    (hfuel : (words.map List.length).sum + word.length < fuel) :
    ∃ T T' found node, Trie.insertAll fuel words .empty = .ok T ∧
      Trie.insertWord fuel T word = .ok T' ∧
      T'.find fuel (c_str (lower word)) T'.root = .ok (found, node) ∧
      (found = true ↔ Ascii word) := by
  have hall : (words.map List.length).sum < fuel := by omega
  obtain ⟨T, t, hinsert, hbuilt⟩ := insertAll_built hwords hall
  obtain ⟨hne, hbytes⟩ := hword
  cases word with
  | nil => exact absurd rfl hne
  | cons c rest =>
    simp only [List.length_cons] at hfuel
    obtain ⟨b, T', hcall, -, hbuilt'⟩ := hbuilt.insert hbytes fuel (by omega)
    have hrun : Trie.insertWord fuel T (c :: rest) = .ok T' := by
      unfold Trie.insertWord
      rw [c_str, hcall]
      rfl
    have hsize := hbuilt'.size
    simp only [List.map_append, List.map_cons, List.map_nil, List.sum_append, List.sum_cons,
      List.sum_nil, List.length_cons] at hsize
    have hnodes : (grow T t c rest).addrs.length < fuel := by omega
    refine ⟨T, T', ?_⟩
    by_cases hascii : Ascii (c :: rest)
    · have hlower : Ascii (tolower c :: lower rest) := ascii_lower hascii
      have hfind := find_refines hbuilt'.rep hlower hnodes
      rw [← hbuilt'.root] at hfind
      refine ⟨_, _, hinsert, hrun, hfind, ?_⟩
      rw [hbuilt'.finds]
      exact ⟨fun _ => hascii, fun _ => ⟨c :: rest, by simp, rfl⟩⟩
    · have hzero : 0 ∉ tolower c :: lower rest := zero_notMem_lower hbytes.zero_notMem
      obtain ⟨d, hd, hhigh⟩ := not_ascii hbytes.zero_notMem hascii
      have hmem : tolower d ∈ tolower c :: lower rest := List.mem_map.mpr ⟨d, hd, rfl⟩
      have hfind := find_high hbuilt'.rep hzero ⟨tolower d, hmem, tolower_high.mpr hhigh⟩
        hnodes
      rw [← hbuilt'.root] at hfind
      exact ⟨false, none, hinsert, hrun, hfind, by simp [hascii]⟩

theorem tea_is_found_after_its_insertion :
    ∃ T T' found node, Trie.insertAll 9 [bytes "Te"] .empty = .ok T ∧
      Trie.insertWord 9 T (bytes "Tea") = .ok T' ∧
      T'.find 9 (c_str (lower (bytes "Tea"))) T'.root = .ok (found, node) ∧
      (found = true ↔ Ascii (bytes "Tea")) := by
  have hte : Plain (bytes "Te") := by decide +kernel
  have htea : Plain (bytes "Tea") := by decide +kernel
  exact an_inserted_word_is_found_iff_it_is_ascii [bytes "Te"] (by simpa using hte.storable)
    (bytes "Tea") htea.storable 9 (by decide)

/-- The one byte 233, which is a letter in Latin-1, is not found after its insertion. -/
theorem the_byte_233_is_not_found :
    Storable [233] ∧ lookup 9 [[233]] (lower [233]) = .ok false := by
  refine ⟨⟨List.cons_ne_nil _ _, fun c hc => ?_⟩, by decide +kernel⟩
  rw [List.mem_singleton.mp hc]
  decide

/-! ## Insert and EOF -/

/-- Where the tree at a slot is gone, or after a node is made there, the slot has a tree with a
head. -/
theorem ensureNode_head {T : Trie} {slot : Slot} {parent : Option Nat} {t : Tst UInt8}
    (hrep : Rep T.heap parent t) (hload : T.load slot = .ok t.head) (c : UInt8) :
    ∃ T₁ parent₁ a key terminator l m r, T.ensureNode c slot = .ok T₁ ∧
      T₁.load slot = .ok (some a) ∧ Rep T₁.heap parent₁ (.node a key terminator l m r) := by
  cases t with
  | nil =>
    obtain ⟨T₁, hensure, hslot, hleaf, -⟩ := ensureNode_nil hload c
    exact ⟨T₁, none, _, _, _, _, _, _, hensure, hslot, hleaf⟩
  | node a key terminator l m r =>
    exact ⟨T, parent, a, key, terminator, l, m, r, Trie.ensureNode_node hload c, hload, hrep⟩

/-- `Insert` of a word with the byte 255 never ends. The byte as a char is less than every key,
also than that of the node made for it, so each call there makes another one to the left. -/
theorem insert_never_ends (fuel : Nat) {T : Trie} {slot : Slot} {parent : Option Nat}
    {t : Tst UInt8} (hrep : Rep T.heap parent t) (hload : T.load slot = .ok t.head) {d : UInt8}
    {rest : Text} (hzero : 0 ∉ d :: rest) (heof : 255 ∈ d :: rest) :
    Trie.insert fuel (d :: rest ++ [0]) slot T = .error .out_of_fuel := by
  induction fuel generalizing T slot parent t d rest with
  | zero => rfl
  | succ fuel ih =>
    obtain ⟨T₁, parent₁, a, key, terminator, l, m, r, hensure, hslot, hnode, hl, hm, hr⟩ :=
      ensureNode_head hrep hload d
    obtain ⟨upper, hnode⟩ := hnode
    unfold Trie.insert Trie.insertAt
    rw [charAt_head, bind_ok, hensure, bind_ok, deref_eq_ok hslot]
    simp only [bind_ok, Trie.node_eq_ok.mpr hnode]
    split_ifs with hlt hgt
    · rw [ih hl (Trie.load_left hnode) hzero heof]
      rfl
    · rw [ih hr (Trie.load_right hnode) hzero heof]
      rfl
    · -- the key is equal, so the byte 255 comes later in the word
      have hd : d ≠ 255 := by
        rintro rfl
        have hneg : tolowerChar 255 = -1 := rfl
        omega
      have hlater : 255 ∈ rest := by simpa [hd.symm] using heof
      cases rest with
      | nil => cases hlater
      | cons x rest =>
        have hx : x ≠ 0 := by
          rintro rfl
          exact hzero (by simp)
        have hcall := ih hm (Trie.load_center hnode) (fun h => hzero (List.mem_cons_of_mem _ h))
          hlater
        rw [charAt_second, bind_ok, if_pos hx]
        simp only [List.cons_append, List.drop_succ_cons, List.drop_zero]
        rw [← List.cons_append, hcall]
        rfl

/-- The recursion of `Insert` ends, and has made at most as many nodes as the word has bytes. -/
def InsertEnds (T : Trie) (word : Text) : Prop :=
  ∃ fuel b T', Trie.insert fuel (c_str word) .root T = .ok (b, T') ∧
    T'.heap.length ≤ T.heap.length + word.length

/-- On every finite trie, `Insert` of a word ends exactly when no byte of the word is 255. -/
theorem insert_ends_iff_no_byte_is_eof {T : Trie} {parent : Option Nat} {t : Tst UInt8}
    (hrep : Rep T.heap parent t) (hroot : T.root = t.head) (hnodup : t.addrs.Nodup) (word : Text)
    (hne : word ≠ []) (hzero : 0 ∉ word) :
    (InsertEnds T word ↔ 255 ∉ word) ∧
    (255 ∈ word → ∀ fuel, Trie.insert fuel (c_str word) .root T = .error .out_of_fuel) := by
  have hload : T.load .root = .ok t.head := congrArg Except.ok hroot
  cases word with
  | nil => exact absurd rfl hne
  | cons c rest =>
    have hforever : 255 ∈ c :: rest →
        ∀ fuel, Trie.insert fuel (c_str (c :: rest)) .root T = .error .out_of_fuel :=
      fun heof fuel => insert_never_ends fuel hrep hload hzero heof
    refine ⟨⟨?_, fun heof => ?_⟩, hforever⟩
    · rintro ⟨fuel, b, T', hrun, -⟩ heof
      rw [hforever heof fuel] at hrun
      cases hrun
    · have hbytes : Insertable (c :: rest) := by
        intro d hd
        exact ⟨fun h => hzero (h ▸ hd), fun h => heof (h ▸ hd)⟩
      obtain ⟨b, T', hcall, -, hgrown⟩ := insert_inserts (t.addrs.length + rest.length + 1) T .root
        parent t c rest hrep hnodup hload (fun x hx => by cases hx) hbytes (Nat.lt_succ_self _)
      refine ⟨_, b, T', hcall, ?_⟩
      have hsize := hgrown.size
      have hperm := (Tst.addrs_ins t T.heap.length (tolower c) (rest.map tolower)).length_eq
      have hmissing := Tst.missing_le t (tolower c) (rest.map tolower)
      simp only [List.length_append, List.length_range', List.length_map] at hperm hmissing
      simp only [grow, Trie.length_store] at hsize
      simp only [List.length_cons]
      omega

theorem insert_ends_for_ab : InsertEnds .empty (bytes "ab") :=
  (@insert_ends_iff_no_byte_is_eof .empty none .nil trivial rfl List.nodup_nil (bytes "ab")
    (by decide) (by decide)).1.mpr (by decide)

/-- `Insert` of the byte 255 into an empty trie does not end. -/
theorem insert_of_the_byte_255_does_not_end :
    ¬ InsertEnds .empty [255] ∧
    ∀ fuel, Trie.insert fuel (c_str [255]) .root .empty = .error .out_of_fuel := by
  have hforever : ∀ fuel, Trie.insert fuel (c_str [255]) .root .empty = .error .out_of_fuel := by
    intro fuel
    exact @insert_never_ends fuel .empty .root none .nil trivial rfl 255 [] (by decide) (by decide)
  refine ⟨?_, hforever⟩
  rintro ⟨fuel, b, T', hrun, -⟩
  rw [hforever fuel] at hrun
  cases hrun

end anagram
