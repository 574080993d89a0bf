-- The places of a ternary search tree: each node with the letters that lead to it.
-- In an ordered tree, a search for a text ends at the node whose place has the
-- text, so the nodes and the beginnings of the words correspond one to one.
import Anagram.General.SearchTrie

namespace search_trie.Tst

variable {κ : Type}

/-- The nodes with the letters from the head on that lead to them, each node before its subtrees. -/
def places : Tst κ → List (List κ × Nat)
  | nil => []
  | node a key _ l c r =>
    ([key], a) :: (l.places ++ c.places.map (fun p => (key :: p.1, p.2)) ++ r.places)

theorem map_snd_places (t : Tst κ) : t.places.map Prod.snd = t.addrs := by
  induction t with
  | nil => rfl
  | node a key terminator l c r ihl ihc ihr =>
    have hbelow : (c.places.map fun p => (key :: p.1, p.2)).map Prod.snd = c.addrs := by
      rw [List.map_map]
      exact ihc
    simp only [places, addrs, List.map_cons, List.map_append, ihl, ihr, hbelow]

/-- A place has a letter of the head or of a sibling at its front. -/
theorem mem_places_keys {t : Tst κ} {p : List κ} {a : Nat} (h : (p, a) ∈ t.places) :
    ∃ k w, p = k :: w ∧ k ∈ t.keys := by
  induction t generalizing p with
  | nil => cases h
  | node b key terminator l c r ihl _ ihr =>
    simp only [places, List.mem_cons, List.mem_append, List.mem_map, Prod.mk.injEq] at h
    simp only [keys, List.mem_append, List.mem_cons]
    rcases h with ⟨rfl, -⟩ | (h | ⟨q, -, rfl, -⟩) | h
    · exact ⟨key, [], rfl, Or.inr (Or.inl rfl)⟩
    · obtain ⟨k, w, hp, hk⟩ := ihl h
      exact ⟨k, w, hp, Or.inl hk⟩
    · exact ⟨key, q.1, rfl, Or.inr (Or.inl rfl)⟩
    · obtain ⟨k, w, hp, hk⟩ := ihr h
      exact ⟨k, w, hp, Or.inr (Or.inr hk)⟩

theorem key_of_place {t : Tst κ} {k : κ} {w : List κ} {a : Nat} (h : (k :: w, a) ∈ t.places) :
    k ∈ t.keys := by
  obtain ⟨k', w', hp, hk⟩ := mem_places_keys h
  cases hp
  exact hk

theorem nil_notMem_places (t : Tst κ) (a : Nat) : ([], a) ∉ t.places := by
  intro h
  obtain ⟨k, w, hp, -⟩ := mem_places_keys h
  cases hp

variable [LinearOrder κ]

/-- In an ordered tree, the search for a text ends at the node with its place. -/
theorem mem_places {t : Tst κ} (ht : t.Ordered) {k : κ} {w : List κ} {a : Nat} :
    (k :: w, a) ∈ t.places ↔ (t.stem k w).head = some a := by
  induction t generalizing k w with
  | nil => simp [places, stem]
  | node b key terminator l c r ihl ihc ihr =>
    obtain ⟨hlkeys, hrkeys, hl, hc, hr⟩ := ht
    have hleft : (k :: w, a) ∈ l.places → k < key := fun h => hlkeys k (key_of_place h)
    have hright : (k :: w, a) ∈ r.places → key < k := fun h => hrkeys k (key_of_place h)
    simp only [places, List.mem_cons, List.mem_append, List.mem_map, Prod.mk.injEq,
      List.cons.injEq]
    unfold stem
    rcases lt_trichotomy k key with hk | rfl | hk
    · have hr' : (k :: w, a) ∉ r.places := fun h => lt_asymm hk (hright h)
      rw [if_pos hk, ← ihl hl]
      simp [hk.ne, hk.ne', hr']
    · have hl' : (k :: w, a) ∉ l.places := fun h => lt_irrefl k (hleft h)
      have hr' : (k :: w, a) ∉ r.places := fun h => lt_irrefl k (hright h)
      rw [if_neg (lt_irrefl k), if_neg (lt_irrefl k)]
      cases w with
      | nil =>
        have hnil := nil_notMem_places c a
        simp [hl', hr', hnil, eq_comm]
      | cons d w =>
        dsimp only
        rw [← ihc hc]
        simp [hl', hr']
    · have hl' : (k :: w, a) ∉ l.places := fun h => lt_asymm hk (hleft h)
      rw [if_neg hk.not_gt, if_pos hk, ← ihr hr]
      simp [hk.ne, hk.ne', hl']

/-- No two nodes have the same place. -/
theorem nodup_places {t : Tst κ} (ht : t.Ordered) (hnodup : t.addrs.Nodup) :
    (t.places.map Prod.fst).Nodup := by
  rw [← map_snd_places, List.Nodup, List.pairwise_map] at hnodup
  rw [List.Nodup, List.pairwise_map]
  apply hnodup.imp_of_mem
  rintro ⟨p, a⟩ ⟨q, b⟩ ha hb hne heq
  obtain ⟨k, w, rfl, -⟩ := mem_places_keys ha
  cases heq
  have hhead := (mem_places ht).mp hb
  rw [(mem_places ht).mp ha] at hhead
  exact hne (Option.some.inj hhead)

/-- In a tree without dead ends, the places are those of the beginnings of the words. -/
theorem exists_place_iff {t : Tst κ} (ht : t.Ordered) (hlive : t.Live) (k : κ) (u : List κ) :
    k :: u ∈ t.places.map Prod.fst ↔ ∃ w, t.find k (u ++ w) = true := by
  rw [← stem_ne_nil hlive ht k u, ne_eq, ← head_eq_none, ← ne_eq, Option.ne_none_iff_exists',
    List.mem_map]
  simp only [← mem_places ht]
  constructor
  · rintro ⟨⟨p, a⟩, hp, rfl⟩
    exact ⟨a, hp⟩
  · rintro ⟨a, ha⟩
    exact ⟨(k :: u, a), ha, rfl⟩

end search_trie.Tst
