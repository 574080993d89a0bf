-- Ternary search trees over an ordered alphabet, with an address at each node.
-- A word is its first letter and the rest. The laws say what an insertion adds
-- to the words found, and which addresses it uses.
import Mathlib

namespace search_trie

/-- A node has an address, a letter, and whether a word ends with it. The left and the right
subtree go on at the same letter of a word, and the center one at the next. -/
inductive Tst (κ : Type)
  | nil
  | node (a : Nat) (key : κ) (terminator : Bool) (l c r : Tst κ)

namespace Tst

variable {κ : Type}

/-! ## Nodes -/

def head : Tst κ → Option Nat
  | nil => none
  | node a _ _ _ _ _ => some a

def addrs : Tst κ → List Nat
  | nil => []
  | node a _ _ l c r => a :: (l.addrs ++ c.addrs ++ r.addrs)

/-- The tree of one word, with addresses from `fresh` on. -/
def chain : Nat → κ → List κ → Tst κ
  | fresh, k, [] => node fresh k true nil nil nil
  | fresh, k, d :: w => node fresh k false nil (chain (fresh + 1) d w) nil

@[simp] theorem head_nil : (nil : Tst κ).head = none := rfl

@[simp] theorem head_node (a : Nat) (key : κ) (terminator : Bool) (l c r : Tst κ) :
    (node a key terminator l c r).head = some a := rfl

theorem head_eq_none {t : Tst κ} : t.head = none ↔ t = nil := by
  cases t with
  | nil => exact ⟨fun _ => rfl, fun _ => rfl⟩
  | node => simp

theorem head_chain (fresh : Nat) (k : κ) (w : List κ) : (chain fresh k w).head = some fresh := by
  cases w <;> rfl

theorem addrs_chain (fresh : Nat) (k : κ) (w : List κ) :
    (chain fresh k w).addrs = List.range' fresh (w.length + 1) := by
  induction w generalizing fresh k with
  | nil => rfl
  | cons d w ih => simp [chain, addrs, ih, List.range'_succ]

/-- The parts of a node have no address in common. -/
structure Apart (a : Nat) (l c r : Tst κ) : Prop where
  head_left : a ∉ l.addrs
  head_center : a ∉ c.addrs
  head_right : a ∉ r.addrs
  left : l.addrs.Nodup
  center : c.addrs.Nodup
  right : r.addrs.Nodup
  left_center : l.addrs.Disjoint c.addrs
  left_right : l.addrs.Disjoint r.addrs
  center_right : c.addrs.Disjoint r.addrs

theorem apart_of_nodup {a : Nat} {key : κ} {terminator : Bool} {l c r : Tst κ}
    (h : (node a key terminator l c r).addrs.Nodup) : Apart a l c r := by
  simp only [addrs, List.nodup_cons, List.nodup_append', List.mem_append, not_or,
    List.disjoint_append_left] at h
  obtain ⟨⟨⟨hal, hac⟩, har⟩, ⟨hl, hc, hlc⟩, hr, hlr, hcr⟩ := h
  exact ⟨hal, hac, har, hl, hc, hr, hlc, hlr, hcr⟩

variable [LinearOrder κ]

def find : Tst κ → κ → List κ → Bool
  | nil, _, _ => false
  | node _ key terminator l c r, k, w =>
    if k < key then l.find k w
    else if key < k then r.find k w
    else match w with
      | [] => terminator
      | d :: w => c.find d w

/-- The tree with one more word. The nodes that are missing get addresses from `fresh` on. -/
def ins : Tst κ → Nat → κ → List κ → Tst κ
  | nil, fresh, k, w => chain fresh k w
  | node a key terminator l c r, fresh, k, w =>
    if k < key then node a key terminator (l.ins fresh k w) c r
    else if key < k then node a key terminator l c (r.ins fresh k w)
    else match w with
      | [] => node a key true l c r
      | d :: w => node a key terminator l (c.ins fresh d w) r

/-- How many nodes are missing for a word. -/
def missing : Tst κ → κ → List κ → Nat
  | nil, _, w => w.length + 1
  | node _ key _ l c r, k, w =>
    if k < key then l.missing k w
    else if key < k then r.missing k w
    else match w with
      | [] => 0
      | d :: w => c.missing d w

theorem missing_le (t : Tst κ) (k : κ) (w : List κ) : t.missing k w ≤ w.length + 1 := by
  induction t generalizing k w with
  | nil => exact le_rfl
  | node a key terminator l c r ihl ihc ihr =>
    unfold missing
    split_ifs
    · exact ihl k w
    · exact ihr k w
    · cases w with
      | nil => exact Nat.zero_le _
      | cons d w => exact (ihc d w).trans (Nat.le_succ _)

/-- The head of a tree stays its head. -/
theorem head_ins_node (a : Nat) (key : κ) (terminator : Bool) (l c r : Tst κ) (fresh : Nat)
    (k : κ) (w : List κ) : ((node a key terminator l c r).ins fresh k w).head = some a := by
  unfold ins
  split_ifs
  · rfl
  · rfl
  · cases w <;> rfl

/-- A new node with the first letter of a word grows to the chain of the word. -/
theorem ins_leaf (fresh : Nat) (k : κ) (w : List κ) :
    (node fresh k false nil nil nil).ins (fresh + 1) k w = chain fresh k w := by
  unfold ins
  rw [if_neg (lt_irrefl k), if_neg (lt_irrefl k)]
  cases w <;> rfl

/-- An insertion adds the fresh addresses of the missing nodes. -/
theorem addrs_ins (t : Tst κ) (fresh : Nat) (k : κ) (w : List κ) :
    (t.ins fresh k w).addrs.Perm (t.addrs ++ List.range' fresh (t.missing k w)) := by
  induction t generalizing k w with
  | nil =>
    rw [ins, addrs_chain, missing]
    exact List.Perm.refl _
  | node a key terminator l c r ihl ihc ihr =>
    unfold ins missing
    split_ifs
    · have h := List.perm_iff_count.mp (ihl k w)
      rw [List.perm_iff_count]
      intro x
      have hx := h x
      simp only [addrs, List.cons_append, List.count_cons, List.count_append] at hx ⊢
      omega
    · have h := List.perm_iff_count.mp (ihr k w)
      rw [List.perm_iff_count]
      intro x
      have hx := h x
      simp only [addrs, List.cons_append, List.count_cons, List.count_append] at hx ⊢
      omega
    · cases w with
      | nil => simp [addrs]
      | cons d w =>
        have h := List.perm_iff_count.mp (ihc d w)
        rw [List.perm_iff_count]
        intro x
        have hx := h x
        simp only [addrs, List.cons_append, List.count_cons, List.count_append] at hx ⊢
        omega

/-- Addresses stay distinct when the fresh ones are above all others. -/
theorem nodup_addrs_ins {t : Tst κ} (ht : t.addrs.Nodup) {fresh : Nat}
    (hfresh : ∀ x ∈ t.addrs, x < fresh) (k : κ) (w : List κ) :
    (t.ins fresh k w).addrs.Nodup := by
  rw [(addrs_ins t fresh k w).nodup_iff, List.nodup_append]
  refine ⟨ht, List.nodup_range', fun x hx y hy => ?_⟩
  have hlt := hfresh x hx
  have hge := (List.mem_range'_1.mp hy).1
  omega

theorem find_chain (fresh : Nat) (k d : κ) (w v : List κ) :
    (chain fresh k w).find d v = decide (d = k ∧ v = w) := by
  induction w generalizing fresh k d v with
  | nil =>
    unfold chain find
    rcases lt_trichotomy d k with h | rfl | h
    · simp [h, h.ne, find]
    · cases v <;> simp [find]
    · simp [h, h.not_gt, h.ne', find]
  | cons e w ih =>
    unfold chain find
    rcases lt_trichotomy d k with h | rfl | h
    · simp [h, h.ne, find]
    · cases v with
      | nil => simp
      | cons f v => simp [ih]
    · simp [h, h.not_gt, h.ne', find]

/-- After an insertion, the tree finds the word inserted, and besides it what it found before. -/
theorem find_ins (t : Tst κ) (fresh : Nat) (k d : κ) (w v : List κ) :
    (t.ins fresh k w).find d v = (decide (d = k ∧ v = w) || t.find d v) := by
  induction t generalizing k d w v with
  | nil => simp [ins, find_chain, find]
  | node a key terminator l c r ihl ihc ihr =>
    -- where the two words part, the one looked for is not the one inserted
    unfold ins
    rcases lt_trichotomy k key with hk | rfl | hk
    · rw [if_pos hk]
      unfold find
      rcases lt_trichotomy d key with hd | rfl | hd
      · simp only [if_pos hd, ihl]
      · simp [hk.ne']
      · have hne : d ≠ k := (hk.trans hd).ne'
        simp [hd, hd.not_gt, hne]
    · rw [if_neg (lt_irrefl k), if_neg (lt_irrefl k)]
      rcases lt_trichotomy d k with hd | rfl | hd
      · cases w <;> simp [find, hd, hd.ne]
      · cases w <;> cases v <;> simp [find, ihc]
      · cases w <;> simp [find, hd, hd.not_gt, hd.ne']
    · rw [if_neg hk.not_gt, if_pos hk]
      unfold find
      rcases lt_trichotomy d key with hd | rfl | hd
      · have hne : d ≠ k := (hd.trans hk).ne
        simp [hd, hne]
      · simp [hk.ne]
      · simp only [if_neg hd.not_gt, if_pos hd, ihr]

/-! ## Order -/

/-- The letters of the head and of its siblings. -/
def keys : Tst κ → List κ
  | nil => []
  | node _ key _ l _ r => l.keys ++ key :: r.keys

/-- Siblings on the left have smaller letters, and those on the right larger ones. -/
def Ordered : Tst κ → Prop
  | nil => True
  | node _ key _ l c r =>
    (∀ k ∈ l.keys, k < key) ∧ (∀ k ∈ r.keys, key < k) ∧ l.Ordered ∧ c.Ordered ∧ r.Ordered

theorem ordered_chain (fresh : Nat) (k : κ) (w : List κ) : (chain fresh k w).Ordered := by
  induction w generalizing fresh k with
  | nil => simp [chain, Ordered, keys]
  | cons d w ih => simp [chain, Ordered, keys, ih]

theorem mem_keys_ins {t : Tst κ} {fresh : Nat} {k x : κ} {w : List κ}
    (h : x ∈ (t.ins fresh k w).keys) : x = k ∨ x ∈ t.keys := by
  induction t generalizing k w with
  | nil =>
    cases w <;> exact Or.inl (List.mem_singleton.mp h)
  | node a key terminator l c r ihl ihc ihr =>
    unfold ins at h
    split_ifs at h
    · simp only [keys, List.mem_append, List.mem_cons] at h ⊢
      rcases h with h | h
      · exact (ihl h).imp_right Or.inl
      · exact Or.inr (Or.inr h)
    · simp only [keys, List.mem_append, List.mem_cons] at h ⊢
      rcases h with h | h | h
      · exact Or.inr (Or.inl h)
      · exact Or.inr (Or.inr (Or.inl h))
      · exact (ihr h).imp_right fun h => Or.inr (Or.inr h)
    · cases w <;> exact Or.inr h

theorem ordered_ins {t : Tst κ} (ht : t.Ordered) (fresh : Nat) (k : κ) (w : List κ) :
    (t.ins fresh k w).Ordered := by
  induction t generalizing k w with
  | nil => exact ordered_chain fresh k w
  | node a key terminator l c r ihl ihc ihr =>
    obtain ⟨hlkeys, hrkeys, hl, hc, hr⟩ := ht
    unfold ins
    split_ifs with hk hk'
    · refine ⟨fun x hx => ?_, hrkeys, ihl hl k w, hc, hr⟩
      rcases mem_keys_ins hx with rfl | hx
      · exact hk
      · exact hlkeys x hx
    · refine ⟨hlkeys, fun x hx => ?_, hl, hc, ihr hr k w⟩
      rcases mem_keys_ins hx with rfl | hx
      · exact hk'
      · exact hrkeys x hx
    · cases w with
      | nil => exact ⟨hlkeys, hrkeys, hl, hc, hr⟩
      | cons d w => exact ⟨hlkeys, hrkeys, hl, ihc hc d w, hr⟩

/-! ## Dead ends -/

/-- No node is a dead end: a word ends at it, or goes on under its center. -/
def Live : Tst κ → Prop
  | nil => True
  | node _ _ terminator l c r => (terminator = true ∨ c ≠ nil) ∧ l.Live ∧ c.Live ∧ r.Live

omit [LinearOrder κ] in
theorem live_chain (fresh : Nat) (k : κ) (w : List κ) : (chain fresh k w).Live := by
  induction w generalizing fresh k with
  | nil => exact ⟨Or.inl rfl, trivial, trivial, trivial⟩
  | cons d w ih =>
    refine ⟨Or.inr ?_, trivial, ih (fresh + 1) d, trivial⟩
    intro hnil
    have hhead := head_eq_none.mpr hnil
    rw [head_chain] at hhead
    cases hhead

theorem ins_ne_nil (t : Tst κ) (fresh : Nat) (k : κ) (w : List κ) : t.ins fresh k w ≠ nil := by
  intro h
  have hhead := head_eq_none.mpr h
  cases t with
  | nil =>
    rw [ins, head_chain] at hhead
    cases hhead
  | node a key terminator l c r =>
    rw [head_ins_node] at hhead
    cases hhead

theorem live_ins {t : Tst κ} (ht : t.Live) (fresh : Nat) (k : κ) (w : List κ) :
    (t.ins fresh k w).Live := by
  induction t generalizing k w with
  | nil => exact live_chain fresh k w
  | node a key terminator l c r ihl ihc ihr =>
    obtain ⟨hend, hl, hc, hr⟩ := ht
    unfold ins
    split_ifs
    · exact ⟨hend, ihl hl k w, hc, hr⟩
    · exact ⟨hend, hl, hc, ihr hr k w⟩
    · cases w with
      | nil => exact ⟨Or.inl rfl, hl, hc, hr⟩
      | cons d w => exact ⟨Or.inr (ins_ne_nil c fresh d w), hl, ihc hc d w, hr⟩

/-! ## Words -/

/-- The words below a head, each node before its subtrees, and these from left to right. -/
def words : Tst κ → List (List κ)
  | nil => []
  | node _ key terminator l c r =>
    (if terminator then [[key]] else []) ++
      (l.words ++ (c.words.map (key :: ·) ++ r.words))

/-- The words that a traversal in this order gets to, when a word that is `cut` stops it: it goes
on neither below the node of the word nor to the siblings under it. -/
def visited : Tst κ → (List κ → Bool) → List (List κ)
  | nil, _ => []
  | node _ key terminator l c r, cut =>
    if terminator && cut [key] then []
    else (if terminator then [[key]] else []) ++ (l.visited cut ++
      ((c.visited fun w => cut (key :: w)).map (key :: ·) ++ r.visited cut))

omit [LinearOrder κ] in
/-- When no word is cut, the traversal gets to all. -/
theorem visited_eq_words (t : Tst κ) {cut : List κ → Bool} (h : ∀ w, cut w = false) :
    t.visited cut = t.words := by
  induction t generalizing cut with
  | nil => rfl
  | node a key terminator l c r ihl ihc ihr =>
    unfold visited words
    rw [h, Bool.and_false, ihl h, ihc fun w => h (key :: w), ihr h]
    rfl

omit [LinearOrder κ] in
/-- A word is not empty, and begins with a letter of the head or of a sibling. -/
theorem mem_words_keys {t : Tst κ} {v : List κ} (h : v ∈ t.words) :
    ∃ k w, v = k :: w ∧ k ∈ t.keys := by
  induction t generalizing v with
  | nil => cases h
  | node a key terminator l c r ihl _ ihr =>
    simp only [words, List.mem_append, List.mem_map] at h
    simp only [keys, List.mem_append, List.mem_cons]
    rcases h with h | h | ⟨w, -, rfl⟩ | h
    · split at h
      · exact ⟨key, [], List.mem_singleton.mp h, Or.inr (Or.inl rfl)⟩
      · cases h
    · obtain ⟨k, w, hv, hk⟩ := ihl h
      exact ⟨k, w, hv, Or.inl hk⟩
    · exact ⟨key, w, rfl, Or.inr (Or.inl rfl)⟩
    · obtain ⟨k, w, hv, hk⟩ := ihr h
      exact ⟨k, w, hv, Or.inr (Or.inr hk)⟩

omit [LinearOrder κ] in
theorem key_of_word {t : Tst κ} {k : κ} {w : List κ} (h : k :: w ∈ t.words) : k ∈ t.keys := by
  obtain ⟨k', w', hv, hk⟩ := mem_words_keys h
  cases hv
  exact hk

omit [LinearOrder κ] in
theorem nil_notMem_words (t : Tst κ) : [] ∉ t.words := by
  intro h
  obtain ⟨k, w, hv, -⟩ := mem_words_keys h
  cases hv

omit [LinearOrder κ] in
theorem exists_word {t : Tst κ} (ht : t.Live) (hne : t ≠ nil) : ∃ w, w ∈ t.words := by
  induction t with
  | nil => exact absurd rfl hne
  | node a key terminator l c r _ ihc _ =>
    obtain ⟨rfl | hc, -, hlive, -⟩ := ht
    · exact ⟨[key], by simp [words]⟩
    · obtain ⟨w, hw⟩ := ihc hlive hc
      exact ⟨key :: w, by simp [words, hw]⟩

omit [LinearOrder κ] in
theorem cons_mem_map_cons {k key : κ} {w : List κ} {ws : List (List κ)} :
    k :: w ∈ ws.map (key :: ·) ↔ k = key ∧ w ∈ ws := by
  simp only [List.mem_map, List.cons.injEq]
  constructor
  · rintro ⟨v, hv, rfl, rfl⟩
    exact ⟨rfl, hv⟩
  · rintro ⟨rfl, hw⟩
    exact ⟨w, hw, rfl, rfl⟩

omit [LinearOrder κ] in
/-- What a node ends is the word of its key. -/
theorem cons_mem_ended {k key : κ} {w : List κ} {terminator : Bool} :
    (k :: w ∈ if terminator then [[key]] else []) ↔ terminator = true ∧ k = key ∧ w = [] := by
  cases terminator <;> simp

/-- The words of an ordered tree are those that a search finds. -/
theorem mem_words {t : Tst κ} (ht : t.Ordered) {k : κ} {w : List κ} :
    k :: w ∈ t.words ↔ t.find k w = true := by
  induction t generalizing k w with
  | nil => simp [words, find]
  | node a key terminator l c r ihl ihc ihr =>
    obtain ⟨hlkeys, hrkeys, hl, hc, hr⟩ := ht
    have hleft : k :: w ∈ l.words → k < key := fun h => hlkeys k (key_of_word h)
    have hright : k :: w ∈ r.words → key < k := fun h => hrkeys k (key_of_word h)
    simp only [words, List.mem_append, cons_mem_map_cons, cons_mem_ended]
    unfold find
    rcases lt_trichotomy k key with hk | rfl | hk
    · rw [if_pos hk, ← ihl hl]
      have hr' : k :: w ∉ r.words := fun h => lt_asymm hk (hright h)
      simp [hk.ne, hr']
    · have hl' : k :: w ∉ l.words := fun h => lt_irrefl k (hleft h)
      have hr' : k :: w ∉ r.words := fun h => lt_irrefl k (hright h)
      rw [if_neg (lt_irrefl k), if_neg (lt_irrefl k)]
      cases w with
      | nil => simp [hl', hr', nil_notMem_words]
      | cons d w => simp [hl', hr', ihc hc]
    · rw [if_neg hk.not_gt, if_pos hk, ← ihr hr]
      have hl' : k :: w ∉ l.words := fun h => lt_asymm hk (hleft h)
      simp [hk.ne', hl']

theorem nodup_words {t : Tst κ} (ht : t.Ordered) : t.words.Nodup := by
  induction t with
  | nil => exact List.nodup_nil
  | node a key terminator l c r ihl ihc ihr =>
    obtain ⟨hlkeys, hrkeys, hl, hc, hr⟩ := ht
    -- the words of the four parts begin with different letters, or go on differently
    have hleft : ∀ w, key :: w ∉ l.words := fun w h => lt_irrefl key (hlkeys key (key_of_word h))
    have hright : ∀ w, key :: w ∉ r.words := fun w h => lt_irrefl key (hrkeys key (key_of_word h))
    have hlr : l.words.Disjoint r.words := by
      intro v hvl hvr
      obtain ⟨k, w, rfl, hk⟩ := mem_words_keys hvl
      exact lt_asymm (hlkeys k hk) (hrkeys k (key_of_word hvr))
    have hlc : l.words.Disjoint (c.words.map (key :: ·)) := by
      intro v hvl hvc
      obtain ⟨w, -, rfl⟩ := List.mem_map.mp hvc
      exact hleft w hvl
    have hcr : (c.words.map (key :: ·)).Disjoint r.words := by
      intro v hvc hvr
      obtain ⟨w, -, rfl⟩ := List.mem_map.mp hvc
      exact hright w hvr
    have hcnodup : (c.words.map (key :: ·)).Nodup :=
      (ihc hc).map fun _ _ h => (List.cons.inj h).2
    have hrest : (l.words ++ (c.words.map (key :: ·) ++ r.words)).Nodup :=
      List.Nodup.append (ihl hl) (List.Nodup.append hcnodup (ihr hr) hcr)
        (List.disjoint_append_right.mpr ⟨hlc, hlr⟩)
    unfold words
    cases terminator with
    | false => exact hrest
    | true =>
      have hkey : [key] ∉ l.words ++ (c.words.map (key :: ·) ++ r.words) := by
        intro h
        simp only [List.mem_append, List.mem_map] at h
        rcases h with h | ⟨w, hw, h⟩ | h
        · exact hleft [] h
        · cases h
          exact nil_notMem_words c hw
        · exact hright [] h
      exact List.nodup_cons.mpr ⟨hkey, hrest⟩

/-! ## Words on the way to a word -/

/-- The words that end at a node on the search path of a word, before the node of the word. -/
def passed : Tst κ → κ → List κ → List (List κ)
  | nil, _, _ => []
  | node _ key terminator l c r, k, w =>
    if k < key then (if terminator then [[key]] else []) ++ l.passed k w
    else if key < k then (if terminator then [[key]] else []) ++ r.passed k w
    else match w with
      | [] => []
      | d :: w => (if terminator then [[key]] else []) ++ (c.passed d w).map (key :: ·)

omit [LinearOrder κ] in
/-- A traversal that is cut gets to some of the words, in the same order. -/
theorem visited_sublist (t : Tst κ) (cut : List κ → Bool) : (t.visited cut).Sublist t.words := by
  induction t generalizing cut with
  | nil => exact List.Sublist.refl _
  | node a key terminator l c r ihl ihc ihr =>
    have hrest := (ihl cut).append (((ihc fun w => cut (key :: w)).map (key :: ·)).append (ihr cut))
    unfold visited words
    by_cases hcut : (terminator && cut [key]) = true
    · rw [if_pos hcut]
      exact List.nil_sublist _
    · rw [if_neg hcut]
      exact (List.Sublist.refl _).append hrest

omit [LinearOrder κ] in
theorem mem_visited_node {a : Nat} {key : κ} {terminator : Bool} {l c r : Tst κ}
    {cut : List κ → Bool} {k : κ} {w : List κ} :
    k :: w ∈ (node a key terminator l c r).visited cut ↔ (terminator && cut [key]) = false ∧
      ((terminator = true ∧ k = key ∧ w = []) ∨ k :: w ∈ l.visited cut ∨
        (k = key ∧ w ∈ c.visited fun w => cut (key :: w)) ∨ k :: w ∈ r.visited cut) := by
  rw [visited]
  by_cases hcut : (terminator && cut [key]) = true
  · rw [if_pos hcut, hcut]
    simp
  · rw [if_neg hcut, Bool.not_eq_true] at *
    simp only [List.mem_append, cons_mem_map_cons, cons_mem_ended, hcut, true_and]

omit [LinearOrder κ] in
/-- What the word of a node on the way adds to the words that are passed. -/
theorem forall_passed_node {terminator : Bool} {key : κ} {us : List (List κ)}
    {cut : List κ → Bool} : (∀ u ∈ (if terminator then [[key]] else []) ++ us, cut u = false) ↔
      (terminator && cut [key]) = false ∧ ∀ u ∈ us, cut u = false := by
  cases terminator <;> simp

theorem passed_subset (t : Tst κ) (k : κ) (w : List κ) : t.passed k w ⊆ t.words := by
  induction t generalizing k w with
  | nil => exact List.nil_subset _
  | node a key terminator l c r ihl ihc ihr =>
    intro u hu
    simp only [words, List.mem_append]
    unfold passed at hu
    rcases lt_trichotomy k key with hk | rfl | hk
    · rw [if_pos hk] at hu
      exact (List.mem_append.mp hu).imp_right fun h => Or.inl (ihl k w h)
    · rw [if_neg (lt_irrefl k), if_neg (lt_irrefl k)] at hu
      cases w with
      | nil => cases hu
      | cons d w =>
        refine (List.mem_append.mp hu).imp_right fun h => Or.inr (Or.inl ?_)
        obtain ⟨v, hv, rfl⟩ := List.mem_map.mp h
        exact List.mem_map_of_mem (ihc d w hv)
    · rw [if_neg hk.not_gt, if_pos hk] at hu
      exact (List.mem_append.mp hu).imp_right fun h => Or.inr (Or.inr (ihr k w h))

/-- A traversal gets to a word that is not cut exactly when it passes no word that is cut. -/
theorem mem_visited {t : Tst κ} (ht : t.Ordered) {cut : List κ → Bool} {k : κ} {w : List κ} :
    k :: w ∈ t.visited cut ↔
      t.find k w = true ∧ cut (k :: w) = false ∧ ∀ u ∈ t.passed k w, cut u = false := by
  induction t generalizing k w cut with
  | nil => simp [visited, find]
  | node a key terminator l c r ihl ihc ihr =>
    obtain ⟨hlkeys, hrkeys, hl, hc, hr⟩ := ht
    have hleft : k :: w ∈ l.visited cut → k < key := fun h =>
      hlkeys k (key_of_word ((visited_sublist l cut).subset h))
    have hright : k :: w ∈ r.visited cut → key < k := fun h =>
      hrkeys k (key_of_word ((visited_sublist r cut).subset h))
    rw [mem_visited_node]
    unfold find passed
    rcases lt_trichotomy k key with hk | rfl | hk
    · have hr' : k :: w ∉ r.visited cut := fun h => lt_asymm hk (hright h)
      rw [if_pos hk, if_pos hk, forall_passed_node, ihl hl]
      simp only [hk.ne, hr', false_and, and_false, false_or, or_false]
      tauto
    · have hl' : k :: w ∉ l.visited cut := fun h => lt_irrefl k (hleft h)
      have hr' : k :: w ∉ r.visited cut := fun h => lt_irrefl k (hright h)
      rw [if_neg (lt_irrefl k), if_neg (lt_irrefl k), if_neg (lt_irrefl k),
        if_neg (lt_irrefl k)]
      cases w with
      | nil =>
        have hnil : [] ∉ c.visited fun w => cut (k :: w) := fun h =>
          nil_notMem_words c ((visited_sublist c _).subset h)
        cases terminator <;> simp [hl', hr', hnil]
      | cons d w =>
        dsimp only
        rw [forall_passed_node, ihc hc]
        simp only [hl', hr', List.forall_mem_map, true_and, and_false, false_or, or_false,
          List.cons_ne_nil]
        tauto
    · have hl' : k :: w ∉ l.visited cut := fun h => lt_asymm hk (hleft h)
      rw [if_neg hk.not_gt, if_pos hk, if_neg hk.not_gt, if_pos hk, forall_passed_node, ihr hr]
      simp only [hk.ne', hl', false_and, and_false, false_or]
      tauto

/-! ## Stems -/

/-- The subtree whose head a search for a text ends at. -/
def stem : Tst κ → κ → List κ → Tst κ
  | nil, _, _ => nil
  | node a key terminator l c r, k, w =>
    if k < key then l.stem k w
    else if key < k then r.stem k w
    else match w with
      | [] => node a key terminator l c r
      | d :: w => c.stem d w

/-- Whether a word ends at the head. -/
def ends : Tst κ → Bool
  | nil => false
  | node _ _ terminator _ _ _ => terminator

def center : Tst κ → Tst κ
  | nil => nil
  | node _ _ _ _ c _ => c

theorem ordered_center {t : Tst κ} (ht : t.Ordered) : t.center.Ordered := by
  cases t with
  | nil => trivial
  | node a key terminator l c r => exact ht.2.2.2.1

theorem ends_stem (t : Tst κ) (k : κ) (w : List κ) : (t.stem k w).ends = t.find k w := by
  induction t generalizing k w with
  | nil => rfl
  | node a key terminator l c r ihl ihc ihr =>
    unfold stem find
    split_ifs
    · exact ihl k w
    · exact ihr k w
    · cases w with
      | nil => rfl
      | cons d w => exact ihc d w

/-- A longer word goes on below the stem. -/
theorem find_append (t : Tst κ) (k : κ) (u : List κ) (d : κ) (w : List κ) :
    t.find k (u ++ d :: w) = (t.stem k u).center.find d w := by
  induction t generalizing k u with
  | nil => rfl
  | node a key terminator l c r ihl ihc ihr =>
    unfold stem
    conv_lhs => unfold find
    split_ifs
    · exact ihl k u
    · exact ihr k u
    · cases u with
      | nil => rfl
      | cons e u => exact ihc e u

theorem addrs_stem_sublist (t : Tst κ) (k : κ) (w : List κ) :
    (t.stem k w).addrs.Sublist t.addrs := by
  induction t generalizing k w with
  | nil => exact List.Sublist.refl _
  | node a key terminator l c r ihl ihc ihr =>
    unfold stem
    split_ifs
    · apply (ihl k w).trans
      simp only [addrs, List.append_assoc]
      exact (List.sublist_append_left _ _).cons a
    · apply (ihr k w).trans
      simp only [addrs]
      exact (List.sublist_append_right _ _).cons a
    · cases w with
      | nil => exact List.Sublist.refl _
      | cons d w =>
        apply (ihc d w).trans
        simp only [addrs]
        exact ((List.sublist_append_right _ _).trans (List.sublist_append_left _ _)).cons a

theorem ordered_stem {t : Tst κ} (ht : t.Ordered) (k : κ) (w : List κ) : (t.stem k w).Ordered := by
  induction t generalizing k w with
  | nil => trivial
  | node a key terminator l c r ihl ihc ihr =>
    obtain ⟨hlkeys, hrkeys, hl, hc, hr⟩ := ht
    unfold stem
    split_ifs
    · exact ihl hl k w
    · exact ihr hr k w
    · cases w with
      | nil => exact ⟨hlkeys, hrkeys, hl, hc, hr⟩
      | cons d w => exact ihc hc d w

theorem live_stem {t : Tst κ} (ht : t.Live) (k : κ) (w : List κ) : (t.stem k w).Live := by
  induction t generalizing k w with
  | nil => trivial
  | node a key terminator l c r ihl ihc ihr =>
    obtain ⟨hend, hl, hc, hr⟩ := ht
    unfold stem
    split_ifs
    · exact ihl hl k w
    · exact ihr hr k w
    · cases w with
      | nil => exact ⟨hend, hl, hc, hr⟩
      | cons d w => exact ihc hc d w

/-- A search gets to a node exactly when some word goes on from its text, or ends with it. -/
theorem stem_ne_nil {t : Tst κ} (ht : t.Live) (hord : t.Ordered) (k : κ) (u : List κ) :
    t.stem k u ≠ nil ↔ ∃ w, t.find k (u ++ w) = true := by
  constructor
  · intro hne
    have hlive := live_stem ht k u
    have hends := ends_stem t k u
    have hmore := fun d w => find_append t k u d w
    have hbelow := ordered_center (ordered_stem hord k u)
    cases hstem : t.stem k u with
    | nil => exact absurd hstem hne
    | node a key terminator l c r =>
      rw [hstem] at hlive hends hmore hbelow
      obtain ⟨hend | hc, -, hlivec, -⟩ := hlive
      · exact ⟨[], by rw [List.append_nil, ← hends]; exact hend⟩
      · obtain ⟨w, hw⟩ := exists_word hlivec hc
        cases w with
        | nil => exact absurd hw (nil_notMem_words c)
        | cons d w => exact ⟨d :: w, by rw [hmore]; exact (mem_words hbelow).mp hw⟩
  · rintro ⟨w, hw⟩ hnil
    have hends := ends_stem t k u
    have hmore := fun d w => find_append t k u d w
    rw [hnil] at hends hmore
    cases w with
    | nil =>
      rw [List.append_nil, ← hends] at hw
      cases hw
    | cons d w =>
      rw [hmore] at hw
      cases hw

end Tst

end search_trie
