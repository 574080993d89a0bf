-- The keys of the result map. A word gets the number of the words before it with
-- its distance, and the distance itself above the low 12 bits. The assignments
-- of a traversal in closed form, and when no key is assigned twice.
import Anagram.ExtrapolateLaws

open search_trie outcome

namespace anagram

/-! ## The assignments of a traversal -/

/-- The ties of the words `vs` after the words `us`, with their scores. -/
def ties (score : Text → Int) : List Text → List Text → List (Nat × Int)
  | _, [] => []
  | us, v :: vs => (tally score us (score v), score v) :: ties score (us ++ [v]) vs

/-- The assignments for the words `vs` after the words `us`. -/
def assignments (score : Text → Int) (stem : Text) : List Text → List Text → List Write
  | _, [] => []
  | us, v :: vs => (tieKey (tally score us (score v)) (score v), stem ++ v) ::
      assignments score stem (us ++ [v]) vs

theorem assignments_keys (score : Text → Int) (stem : Text) (us vs : List Text) :
    (assignments score stem us vs).map Prod.fst =
      (ties score us vs).map fun p => tieKey p.1 p.2 := by
  induction vs generalizing us with
  | nil => rfl
  | cons v vs ih => simp [assignments, ties, ih]

theorem assignments_texts (score : Text → Int) (stem : Text) (us vs : List Text) :
    (assignments score stem us vs).map Prod.snd = vs.map (stem ++ ·) := by
  induction vs generalizing us with
  | nil => rfl
  | cons v vs ih => simp [assignments, ih]

/-- Each tie below the number of the words of a score is there, from the first new one on. -/
theorem mem_ties (score : Text → Int) (us vs : List Text) (j : Nat) (x : Int) :
    (j, x) ∈ ties score us vs ↔ tally score us x ≤ j ∧ j < tally score (us ++ vs) x := by
  induction vs generalizing us with
  | nil =>
    simp only [ties, List.not_mem_nil, List.append_nil, false_iff, not_and, not_lt]
    exact id
  | cons v vs ih =>
    have hsplit : us ++ v :: vs = us ++ [v] ++ vs := by simp
    have hmono : tally score (us ++ [v]) x ≤ tally score (us ++ [v] ++ vs) x := by
      unfold tally
      exact (List.sublist_append_left (us ++ [v]) vs).countP_le
    have hsnoc := tally_snoc score us v x
    rw [ties, List.mem_cons, ih, hsplit, Prod.mk.injEq]
    by_cases hv : score v = x
    · rw [if_pos hv] at hsnoc
      rw [hv]
      omega
    · rw [if_neg hv] at hsnoc
      simp only [Ne.symm hv, and_false, false_or]
      omega

theorem nodup_ties (score : Text → Int) (us vs : List Text) : (ties score us vs).Nodup := by
  induction vs generalizing us with
  | nil => exact List.nodup_nil
  | cons v vs ih =>
    refine List.nodup_cons.mpr ⟨fun hmem => ?_, ih (us ++ [v])⟩
    have hle := ((mem_ties score (us ++ [v]) vs _ _).mp hmem).1
    rw [tally_snoc, if_pos rfl] at hle
    omega

/-- The keys are distinct exactly when no two ties share one. -/
theorem nodup_keys_iff (score : Text → Int) (stem : Text) (vs : List Text) :
    ((assignments score stem [] vs).map Prod.fst).Nodup ↔
      ∀ x y (i j : Nat), i < tally score vs x → j < tally score vs y →
        tieKey i x = tieKey j y → x = y ∧ i = j := by
  have hmem : ∀ (i : Nat) (x : Int), (i, x) ∈ ties score [] vs ↔ i < tally score vs x := by
    intro i x
    rw [mem_ties]
    simp [tally]
  rw [assignments_keys, List.nodup_map_iff_inj_on (nodup_ties score [] vs)]
  constructor
  · intro h x y i j hi hj heq
    have hpair := h (i, x) ((hmem i x).mpr hi) (j, y) ((hmem j y).mpr hj) heq
    exact ⟨congrArg Prod.snd hpair, congrArg Prod.fst hpair⟩
  · rintro h ⟨i, x⟩ hi ⟨j, y⟩ hj heq
    obtain ⟨rfl, rfl⟩ := h x y i j ((hmem i x).mp hi) ((hmem j y).mp hj) heq
    rfl

section
variable (columns : Text → Nat → Nat) (stem word : Text)

/-- The words of a traversal, after those before it, make these assignments. -/
theorem foldl_addWrite_assignments {us : List Text} (vs : List Text)
    {x : Extrapolation × List Write} (h : Counted (scoreOf columns stem word) us x.1) :
    (vs.foldl (addWrite columns stem word) x).2 =
      x.2 ++ assignments (scoreOf columns stem word) stem us vs := by
  induction vs generalizing us x with
  | nil => exact (List.append_nil _).symm
  | cons v vs ih =>
    have haccum : Counted (scoreOf columns stem word) us { x.1 with accum := v } := h
    obtain ⟨htie, hwords, hlookup⟩ := breakTie_counted haccum (scoreOf columns stem word v)
    have hnext : Counted (scoreOf columns stem word) (us ++ [v])
        (addWrite columns stem word x v).1 := by
      intro y
      have hdef : (addWrite columns stem word x v).1.tie_breaker_lookup = _ := hlookup
      rw [hdef, Std.TreeMap.getElem?_insert, tally_snoc]
      by_cases hy : scoreOf columns stem word v = y
      · subst hy
        simp
      · simp [hy, h y]
    have hwrite : commitWrites columns stem word 0 { x.1 with accum := v } =
        [(tieKey (tally (scoreOf columns stem word) us (scoreOf columns stem word v))
          (scoreOf columns stem word v), stem ++ v)] := by
      rw [← htie]
      rfl
    have hlog : (addWrite columns stem word x v).2 =
        x.2 ++ commitWrites columns stem word 0 { x.1 with accum := v } := rfl
    rw [List.foldl_cons, ih hnext, hlog, hwrite, assignments, List.append_assoc,
      List.singleton_append]

end

end anagram
