-- The height of a ternary search trie. The nodes that hang together by left and right
-- pointers have letters of their own, so there are no more of them than letters, and
-- the height is bounded by the letters and the longest word, not by the words.
import Anagram.General.SearchTrie

namespace search_trie.Tst

variable {κ : Type}

/-- The most nodes on a way down from the head, along pointers of all three kinds. -/
def height : Tst κ → Nat
  | nil => 0
  | node _ _ _ l c r => max l.height (max c.height r.height) + 1

theorem height_le_size (t : Tst κ) : t.height ≤ t.addrs.length := by
  induction t with
  | nil => exact le_rfl
  | node a key terminator l c r ihl ihc ihr =>
    simp only [height, addrs, List.length_cons, List.length_append]
    omega

/-- The height of the subtree in the center. -/
theorem height_center_le (t : Tst κ) : t.center.height ≤ t.height := by
  cases t with
  | nil => exact le_rfl
  | node a key terminator l c r =>
    simp only [center, height]
    omega

variable [LinearOrder κ]

theorem nodup_keys {t : Tst κ} (ht : t.Ordered) : t.keys.Nodup := by
  induction t with
  | nil => exact List.nodup_nil
  | node a key terminator l c r ihl _ ihr =>
    obtain ⟨hlkeys, hrkeys, hl, -, hr⟩ := ht
    unfold keys
    apply List.Nodup.append (ihl hl)
    · exact List.nodup_cons.mpr ⟨fun h => lt_irrefl key (hrkeys key h), ihr hr⟩
    · intro k hk hmem
      have hlt := hlkeys k hk
      rcases List.mem_cons.mp hmem with rfl | hright
      · exact lt_irrefl k hlt
      · exact lt_asymm hlt (hrkeys k hright)

theorem height_stem_le (t : Tst κ) (k : κ) (w : List κ) : (t.stem k w).height ≤ t.height := by
  induction t generalizing k w with
  | nil => exact le_rfl
  | node a key terminator l c r ihl ihc ihr =>
    have hl := ihl k w
    have hr := ihr k w
    unfold stem
    split_ifs
    · simp only [height]
      omega
    · simp only [height]
      omega
    · cases w with
      | nil => exact le_rfl
      | cons d w =>
        have hc := ihc d w
        simp only [height]
        omega

omit [LinearOrder κ] in
/-- A word of the tree begins with each key of the head and its siblings. -/
theorem exists_word_of_key {t : Tst κ} (ht : t.Live) {k : κ} (hk : k ∈ t.keys) :
    ∃ w, k :: w ∈ t.words := by
  induction t with
  | nil => exact absurd hk List.not_mem_nil
  | node a key terminator l c r ihl _ ihr =>
    obtain ⟨hend, hl, hc, hr⟩ := ht
    simp only [keys, List.mem_append, List.mem_cons] at hk
    rcases hk with hk | rfl | hk
    · obtain ⟨w, hw⟩ := ihl hl hk
      exact ⟨w, by simp [words, hw]⟩
    · rcases hend with rfl | hne
      · exact ⟨[], by simp [words]⟩
      · obtain ⟨w, hw⟩ := exists_word hc hne
        exact ⟨w, by simp [words, hw]⟩
    · obtain ⟨w, hw⟩ := ihr hr hk
      exact ⟨w, by simp [words, hw]⟩

/-- The words are no longer than `L`, and have letters of `S`. -/
def WordsIn (S : Finset κ) (L : Nat) (t : Tst κ) : Prop :=
  ∀ w ∈ t.words, w.length ≤ L ∧ ∀ k ∈ w, k ∈ S

omit [LinearOrder κ] in
/-- Only the empty tree has no room for a letter. -/
theorem eq_nil_of_wordsIn_zero {t : Tst κ} (hlive : t.Live) {S : Finset κ}
    (hwords : t.WordsIn S 0) : t = nil := by
  by_contra hne
  obtain ⟨w, hw⟩ := exists_word hlive hne
  have hlen := (hwords w hw).1
  rw [Nat.le_zero, List.length_eq_zero_iff] at hlen
  exact nil_notMem_words t (hlen ▸ hw)

/-- There are at most as many siblings as letters. -/
theorem length_keys_le {t : Tst κ} (hord : t.Ordered) (hlive : t.Live) {S : Finset κ} {L : Nat}
    (hwords : t.WordsIn S L) : t.keys.length ≤ S.card := by
  rw [← List.toFinset_card_of_nodup (nodup_keys hord)]
  apply Finset.card_le_card
  intro k hk
  obtain ⟨w, hw⟩ := exists_word_of_key hlive (List.mem_toFinset.mp hk)
  exact (hwords _ hw).2 k List.mem_cons_self

/-- Each pointer to the center takes one letter off the words. Those to the left or right, before
the next one to the center, are fewer than the letters. -/
theorem height_le_keys {t : Tst κ} (hord : t.Ordered) (hlive : t.Live) {S : Finset κ} {L : Nat}
    (hwords : t.WordsIn S (L + 1)) : t.height ≤ t.keys.length + S.card * L := by
  induction t generalizing L with
  | nil => exact Nat.zero_le _
  | node a key terminator l c r ihl ihc ihr =>
    have hwhole := hwords
    obtain ⟨-, -, hl, hc, hr⟩ := hord
    obtain ⟨-, hllive, hclive, hrlive⟩ := hlive
    have hleft := ihl hl hllive fun w hw => hwhole w (by simp [words, hw])
    have hright := ihr hr hrlive fun w hw => hwhole w (by simp [words, hw])
    have hbelow : c.WordsIn S L := by
      intro w hw
      obtain ⟨hlen, hletters⟩ := hwhole (key :: w) (by simp [words, hw])
      refine ⟨by simpa using hlen, fun k hk => hletters k (List.mem_cons_of_mem _ hk)⟩
    have hcenter : c.height ≤ S.card * L := by
      cases L with
      | zero => simp [eq_nil_of_wordsIn_zero hclive hbelow, height]
      | succ L =>
        have hstep := ihc hc hclive hbelow
        have hkeys := length_keys_le hc hclive hbelow
        rw [Nat.mul_succ]
        omega
    simp only [height, keys, List.length_append, List.length_cons]
    omega

/-- The letters times the length of the longest word bound the height. -/
theorem height_le {t : Tst κ} (hord : t.Ordered) (hlive : t.Live) {S : Finset κ} {L : Nat}
    (hwords : t.WordsIn S L) : t.height ≤ S.card * L := by
  cases L with
  | zero => simp [eq_nil_of_wordsIn_zero hlive hwords, height]
  | succ L =>
    have hheight := height_le_keys hord hlive hwords
    have hkeys := length_keys_le hord hlive hwords
    rw [Nat.mul_succ]
    omega

end search_trie.Tst
