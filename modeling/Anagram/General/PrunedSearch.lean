-- Searches that grow a sequence step by step from an ordered list of keys.
-- A step may be any key from the last one on, so a key may repeat, and a
-- verdict on the grown sequence cuts the branch, accepts it, or goes deeper.
-- The laws: what such a search finds, that it finds nothing twice, and that
-- starts dealt out in turn to several searches share the work without a gap.
import Anagram.General.Outcome

open outcome

namespace pruned_search

variable {κ ε : Type}

/-! ## The search -/

/-- What a search asks about a sequence `ws` and a next key `k`. A verdict of 0 accepts the
grown sequence, a negative one goes deeper, and a positive one cuts the branch. `enter` is what
going deeper, or starting, costs: it may fail. -/
structure Rules (κ ε : Type) where
  skip : List κ → κ → Bool
  verdict : List κ → κ → Except ε Int
  enter : List κ → Except ε Unit

/-- What the verdict `r` on `ws` grown by `k` leads to. `deeper` searches on from a grown
sequence. -/
def branch (R : Rules κ ε) (deeper : List κ → List κ → Except ε (List (List κ)))
    (ws : List κ) (k : κ) (rest : List κ) (r : Int) : Except ε (List (List κ)) :=
  if r = 0 then .ok [ws ++ [k]]
  else if r < 0 then do
    R.enter (ws ++ [k])
    deeper (ws ++ [k]) (k :: rest)
  else .ok []

/-- The keys left to try are those of the list, in order. -/
def searchLoop (R : Rules κ ε) (deeper : List κ → List κ → Except ε (List (List κ)))
    (ws : List κ) : List κ → Except ε (List (List κ))
  | [] => .ok []
  | k :: rest =>
    if R.skip ws k then searchLoop R deeper ws rest
    else do
      let r ← R.verdict ws k
      let here ← branch R deeper ws k rest r
      let there ← searchLoop R deeper ws rest
      .ok (here ++ there)

/-- The search from `ws`, no deeper than the fuel. It fails with `spent` at the end of the fuel. -/
def search (R : Rules κ ε) (spent : ε) : Nat → List κ → List κ → Except ε (List (List κ))
  | 0, _, _ => .error spent
  | fuel + 1, ws, ks => searchLoop R (search R spent fuel) ws ks

/-- The searches from every `stride`-th key of the list, the first one included. A start for
which `stuck` holds never moves on to the next one. -/
def sweep (R : Rules κ ε) (spent : ε) (stuck : κ → Bool) (fuel stride : Nat) :
    Nat → List κ → Except ε (List (List κ))
  | 0, _ => .error spent
  | _ + 1, [] => .ok []
  | n + 1, k :: rest =>
    if stuck k then sweep R spent stuck fuel stride n (k :: rest)
    else do
      R.enter [k]
      let here ← search R spent fuel [k] (k :: rest)
      let there ← sweep R spent stuck fuel stride n ((k :: rest).drop stride)
      .ok (here ++ there)

/-! ## What a search does -/

section
variable {R : Rules κ ε} {deeper : List κ → List κ → Except ε (List (List κ))} {ws rest : List κ}
  {k : κ}

/-- What ends a branch: it accepts, or the search from the grown sequence ends, or it is cut. -/
theorem branch_eq_ok {r : Int} {here : List (List κ)} :
    branch R deeper ws k rest r = .ok here ↔ (r = 0 ∧ here = [ws ++ [k]]) ∨
      (r < 0 ∧ R.enter (ws ++ [k]) = .ok () ∧ deeper (ws ++ [k]) (k :: rest) = .ok here) ∨
      (0 < r ∧ here = []) := by
  unfold branch
  split_ifs with hzero hneg
  · simp [hzero, eq_comm]
  · simp only [hzero, hneg, hneg.not_gt, bind_eq_ok, false_and, true_and, false_or, or_false]
    exact ⟨fun ⟨_, h⟩ => h, fun h => ⟨(), h⟩⟩
  · have hpos : 0 < r := by omega
    simp [hzero, hneg, hpos, eq_comm]

/-- A branch ends when the search does that it goes down to. -/
theorem branch_ok {r : Int} (hdown : r < 0 → R.enter (ws ++ [k]) = .ok () ∧
      ∃ here, deeper (ws ++ [k]) (k :: rest) = .ok here) :
    ∃ here, branch R deeper ws k rest r = .ok here := by
  rcases lt_trichotomy r 0 with hneg | hzero | hpos
  · obtain ⟨henter, here, hhere⟩ := hdown hneg
    exact ⟨here, branch_eq_ok.mpr (Or.inr (Or.inl ⟨hneg, henter, hhere⟩))⟩
  · exact ⟨_, branch_eq_ok.mpr (Or.inl ⟨hzero, rfl⟩)⟩
  · exact ⟨_, branch_eq_ok.mpr (Or.inr (Or.inr ⟨hpos, rfl⟩))⟩

theorem searchLoop_skip (hskip : R.skip ws k = true) :
    searchLoop R deeper ws (k :: rest) = searchLoop R deeper ws rest := by
  rw [searchLoop, if_pos hskip]

/-- From a key that is not passed over, a loop ends when the branch of its verdict does, and the
loop over the later keys. -/
theorem searchLoop_eq_ok (hskip : R.skip ws k = false) {L : List (List κ)} :
    searchLoop R deeper ws (k :: rest) = .ok L ↔ ∃ r here there, R.verdict ws k = .ok r ∧
      branch R deeper ws k rest r = .ok here ∧ searchLoop R deeper ws rest = .ok there ∧
      L = here ++ there := by
  rw [searchLoop, if_neg (by simp [hskip])]
  constructor
  · intro h
    obtain ⟨r, hr, h⟩ := bind_eq_ok.mp h
    obtain ⟨here, hhere, h⟩ := bind_eq_ok.mp h
    obtain ⟨there, hthere, h⟩ := bind_eq_ok.mp h
    exact ⟨r, here, there, hr, hhere, hthere, (Except.ok.inj h).symm⟩
  · rintro ⟨r, here, there, hr, hhere, hthere, rfl⟩
    rw [hr, bind_ok, hhere, bind_ok, hthere, bind_ok]

end

section
variable {R : Rules κ ε} {spent : ε} {stuck : κ → Bool} {fuel stride n : Nat} {k : κ}
  {rest : List κ}

/-- From a start that is not stuck, a sweep ends when the search from there does, and the sweep
over the later starts. -/
theorem sweep_eq_ok (hstuck : stuck k = false) {L : List (List κ)} :
    sweep R spent stuck fuel stride (n + 1) (k :: rest) = .ok L ↔ ∃ here there,
      R.enter [k] = .ok () ∧ search R spent fuel [k] (k :: rest) = .ok here ∧
      sweep R spent stuck fuel stride n ((k :: rest).drop stride) = .ok there ∧
      L = here ++ there := by
  rw [sweep, if_neg (by simp [hstuck])]
  constructor
  · intro h
    obtain ⟨_, henter, h⟩ := bind_eq_ok.mp h
    obtain ⟨here, hhere, h⟩ := bind_eq_ok.mp h
    obtain ⟨there, hthere, h⟩ := bind_eq_ok.mp h
    exact ⟨here, there, henter, hhere, hthere, (Except.ok.inj h).symm⟩
  · rintro ⟨here, there, henter, hhere, hthere, rfl⟩
    rw [henter, bind_ok, hhere, bind_ok, hthere, bind_ok]

/-- A start that is stuck uses up all turns. -/
theorem sweep_stuck (hstuck : stuck k = true) (n : Nat) (ks : List κ) :
    sweep R spent stuck fuel stride n (k :: ks) = .error spent := by
  induction n with
  | zero => rfl
  | succ n ih =>
    unfold sweep
    rw [if_pos hstuck]
    exact ih

/-- So no sweep from a start that is stuck ends. -/
theorem not_stuck_of_sweep {ks : List κ} {L : List (List κ)}
    (h : sweep R spent stuck fuel stride n (k :: ks) = .ok L) : stuck k = false := by
  by_contra hstuck
  rw [sweep_stuck (Bool.not_eq_false _ ▸ hstuck)] at h
  cases h

end

/-! ## What a search finds -/

/-- `ys` is drawn from `ks` in the order of the list, where a key may repeat. -/
inductive Drawn : List κ → List κ → Prop
  | nil (ks : List κ) : Drawn ks []
  | skip {k : κ} {ks ys : List κ} : Drawn ks ys → Drawn (k :: ks) ys
  | take {k : κ} {ks ys : List κ} : Drawn (k :: ks) ys → Drawn (k :: ks) (k :: ys)

/-- The rules let `ws` grow by `ys`, key by key, and accept at the last one. -/
def Accepted (R : Rules κ ε) : List κ → List κ → Prop
  | _, [] => False
  | ws, k :: ys => R.skip ws k = false ∧
      ((ys = [] ∧ R.verdict ws k = .ok 0) ∨
        (∃ r < 0, R.verdict ws k = .ok r) ∧ Accepted R (ws ++ [k]) ys)

theorem Drawn.mem {ks ys : List κ} (h : Drawn ks ys) : ∀ y ∈ ys, y ∈ ks := by
  induction h with
  | nil => simp
  | skip _ ih => exact fun y hy => List.mem_cons_of_mem _ (ih y hy)
  | take _ ih =>
    intro y hy
    rcases List.mem_cons.mp hy with rfl | hy
    · exact List.mem_cons_self
    · exact ih y hy

theorem drawn_cons_iff {k : κ} {ks ys : List κ} :
    Drawn (k :: ks) ys ↔ Drawn ks ys ∨ ∃ zs, ys = k :: zs ∧ Drawn (k :: ks) zs := by
  constructor
  · intro h
    cases h with
    | nil => exact Or.inl (Drawn.nil ks)
    | skip h => exact Or.inl h
    | take h => exact Or.inr ⟨_, rfl, h⟩
  · rintro (h | ⟨zs, rfl, h⟩)
    · exact Drawn.skip h
    · exact Drawn.take h

theorem Drawn.suffix {ks ls ys : List κ} (h : Drawn ls ys) (hs : ls <:+ ks) : Drawn ks ys := by
  obtain ⟨pre, rfl⟩ := hs
  induction pre with
  | nil => exact h
  | cons _ _ ih => exact Drawn.skip ih

/-- In a list with a strict order, drawn means sorted. -/
theorem drawn_iff_sorted {lt : κ → κ → Prop} (hasymm : ∀ a b, lt a b → ¬ lt b a)
    {ks : List κ} (hks : ks.Pairwise lt) (ys : List κ) :
    Drawn ks ys ↔ (∀ y ∈ ys, y ∈ ks) ∧ ys.Pairwise (fun a b => a = b ∨ lt a b) := by
  constructor
  · intro h
    refine ⟨h.mem, ?_⟩
    induction h with
    | nil => exact List.Pairwise.nil
    | skip _ ih => exact ih hks.of_cons
    | @take k ks ys h ih =>
      refine List.Pairwise.cons (fun y hy => ?_) (ih hks)
      rcases List.mem_cons.mp (h.mem y hy) with rfl | hy
      · exact Or.inl rfl
      · exact Or.inr ((List.pairwise_cons.mp hks).1 y hy)
  · rintro ⟨hmem, hsort⟩
    induction ks generalizing ys with
    | nil =>
      cases ys with
      | nil => exact Drawn.nil _
      | cons y ys => simpa using hmem y (by simp)
    | cons k ks ih =>
      obtain ⟨hk, hks⟩ := List.pairwise_cons.mp hks
      induction ys with
      | nil => exact Drawn.nil _
      | cons y ys ih2 =>
        obtain ⟨hy, hys⟩ := List.pairwise_cons.mp hsort
        by_cases hyk : y = k
        · subst hyk
          exact Drawn.take (ih2 (fun z hz => hmem z (by simp [hz])) hys)
        · have hyks : y ∈ ks := by simpa [hyk] using hmem y (by simp)
          refine Drawn.skip (ih hks _ (fun z hz => ?_) hsort)
          rcases List.mem_cons.mp hz with rfl | hz'
          · exact hyks
          rcases List.mem_cons.mp (hmem z hz) with rfl | h
          · -- a later step back to `k` would break the order
            rcases hy z hz' with rfl | hlt
            · exact absurd rfl hyk
            · exact absurd hlt (hasymm _ _ (hk y hyks))
          · exact h

/-- A branch finds what starts with its key. -/
theorem mem_branch {R : Rules κ ε} {deeper : List κ → List κ → Except ε (List (List κ))}
    (hd : ∀ ws ks L, deeper ws ks = .ok L → ∀ zs, zs ∈ L ↔
      ∃ ys, zs = ws ++ ys ∧ Drawn ks ys ∧ Accepted R ws ys)
    {ws rest : List κ} {k : κ} (hskip : R.skip ws k = false) {r : Int}
    (hr : R.verdict ws k = .ok r) {here : List (List κ)}
    (h : branch R deeper ws k rest r = .ok here) (zs : List κ) :
    zs ∈ here ↔ ∃ ys, zs = ws ++ k :: ys ∧ Drawn (k :: rest) ys ∧ Accepted R ws (k :: ys) := by
  have hverdict : ∀ s, R.verdict ws k = .ok s → s = r := by
    intro s hs
    rw [hr] at hs
    exact (Except.ok.inj hs).symm
  rcases branch_eq_ok.mp h with ⟨rfl, rfl⟩ | ⟨hneg, -, hdeep⟩ | ⟨hpos, rfl⟩
  · rw [List.mem_singleton]
    constructor
    · rintro rfl
      exact ⟨[], rfl, Drawn.nil _, hskip, Or.inl ⟨rfl, hr⟩⟩
    · rintro ⟨ys, rfl, _, _, ⟨rfl, _⟩ | ⟨⟨s, hs, hv⟩, _⟩⟩
      · rfl
      · have := hverdict s hv
        omega
  · rw [hd _ _ _ hdeep]
    constructor
    · rintro ⟨ys, rfl, hdr, hacc⟩
      exact ⟨ys, by simp, hdr, hskip, Or.inr ⟨⟨r, hneg, hr⟩, hacc⟩⟩
    · rintro ⟨ys, rfl, hdr, _, ⟨rfl, hv⟩ | ⟨_, hacc⟩⟩
      · exact absurd (hverdict 0 hv).symm hneg.ne
      · exact ⟨ys, by simp, hdr, hacc⟩
  · simp only [List.not_mem_nil, false_iff, not_exists, not_and]
    rintro ys _ _ ⟨_, ⟨_, hv⟩ | ⟨⟨s, hs, hv⟩, _⟩⟩
    · exact hpos.ne (hverdict 0 hv)
    · have := hverdict s hv
      omega

theorem mem_searchLoop {R : Rules κ ε} {deeper : List κ → List κ → Except ε (List (List κ))}
    (hd : ∀ ws ks L, deeper ws ks = .ok L → ∀ zs, zs ∈ L ↔
      ∃ ys, zs = ws ++ ys ∧ Drawn ks ys ∧ Accepted R ws ys)
    (ws ks : List κ) {L : List (List κ)} (h : searchLoop R deeper ws ks = .ok L)
    (zs : List κ) :
    zs ∈ L ↔ ∃ ys, zs = ws ++ ys ∧ Drawn ks ys ∧ Accepted R ws ys := by
  induction ks generalizing L with
  | nil =>
    cases h
    simp only [List.not_mem_nil, false_iff, not_exists, not_and]
    rintro ys _ hdr
    cases hdr
    simp [Accepted]
  | cons k rest ih =>
    have hsplit : (∃ ys, zs = ws ++ ys ∧ Drawn (k :: rest) ys ∧ Accepted R ws ys) ↔
        (∃ ys, zs = ws ++ k :: ys ∧ Drawn (k :: rest) ys ∧ Accepted R ws (k :: ys)) ∨
        (∃ ys, zs = ws ++ ys ∧ Drawn rest ys ∧ Accepted R ws ys) := by
      constructor
      · rintro ⟨ys, rfl, hdr, hacc⟩
        rcases drawn_cons_iff.mp hdr with hdr' | ⟨vs, rfl, hdr'⟩
        · exact Or.inr ⟨ys, rfl, hdr', hacc⟩
        · exact Or.inl ⟨vs, rfl, hdr', hacc⟩
      · rintro (⟨ys, rfl, hdr, hacc⟩ | ⟨ys, rfl, hdr, hacc⟩)
        · exact ⟨_, rfl, Drawn.take hdr, hacc⟩
        · exact ⟨_, rfl, Drawn.skip hdr, hacc⟩
    rw [hsplit]
    cases hskip : R.skip ws k with
    | true =>
      rw [searchLoop_skip hskip] at h
      rw [ih h]
      constructor
      · exact Or.inr
      · rintro (⟨ys, _, _, hacc⟩ | hlater)
        · simp [Accepted, hskip] at hacc
        · exact hlater
    | false =>
      obtain ⟨r, here, there, hr, hhere, hthere, rfl⟩ := (searchLoop_eq_ok hskip).mp h
      rw [List.mem_append, ih hthere, mem_branch hd hskip hr hhere]

/-- A search that ends finds exactly the sequences that are drawn from its keys and that the
rules accept. -/
theorem mem_search {R : Rules κ ε} {spent : ε} (fuel : Nat) (ws ks : List κ)
    {L : List (List κ)} (h : search R spent fuel ws ks = .ok L) (zs : List κ) :
    zs ∈ L ↔ ∃ ys, zs = ws ++ ys ∧ Drawn ks ys ∧ Accepted R ws ys := by
  induction fuel generalizing ws ks L zs with
  | zero => cases h
  | succ fuel ih => exact mem_searchLoop (fun ws ks L hL zs => ih ws ks hL zs) ws ks h zs

theorem nodup_searchLoop {R : Rules κ ε}
    {deeper : List κ → List κ → Except ε (List (List κ))}
    (hd : ∀ ws ks L, deeper ws ks = .ok L → ∀ zs, zs ∈ L ↔
      ∃ ys, zs = ws ++ ys ∧ Drawn ks ys ∧ Accepted R ws ys)
    (hn : ∀ ws ks L, ks.Nodup → deeper ws ks = .ok L → L.Nodup)
    (ws ks : List κ) (hks : ks.Nodup) {L : List (List κ)}
    (h : searchLoop R deeper ws ks = .ok L) : L.Nodup := by
  induction ks generalizing L with
  | nil =>
    cases h
    exact List.nodup_nil
  | cons k rest ih =>
    obtain ⟨hk, hrest⟩ := List.nodup_cons.mp hks
    cases hskip : R.skip ws k with
    | true => exact ih hrest (searchLoop_skip hskip ▸ h)
    | false =>
      obtain ⟨r, here, there, hr, hhere, hthere, rfl⟩ := (searchLoop_eq_ok hskip).mp h
      refine List.Nodup.append ?_ (ih hrest hthere) ?_
      · rcases branch_eq_ok.mp hhere with ⟨-, rfl⟩ | ⟨-, -, hdeep⟩ | ⟨-, rfl⟩
        · exact List.nodup_singleton _
        · exact hn _ _ _ hks hdeep
        · exact List.nodup_nil
      · intro zs h1 h2
        obtain ⟨vs, rfl, _, _⟩ := (mem_branch hd hskip hr hhere zs).mp h1
        obtain ⟨ys, he, hdr, _⟩ := (mem_searchLoop hd ws rest hthere _).mp h2
        have hys : k :: vs = ys := List.append_cancel_left he
        subst hys
        exact hk (hdr.mem k List.mem_cons_self)

/-- No sequence is found twice. -/
theorem nodup_search {R : Rules κ ε} {spent : ε} (fuel : Nat) (ws ks : List κ)
    (hks : ks.Nodup) {L : List (List κ)} (h : search R spent fuel ws ks = .ok L) :
    L.Nodup := by
  induction fuel generalizing ws ks L with
  | zero => cases h
  | succ fuel ih =>
    exact nodup_searchLoop (fun ws ks L hL zs => mem_search fuel ws ks hL zs)
      (fun ws ks L hk hL => ih ws ks hk hL) ws ks hks h

/-! ## When a search ends -/

/-- A search ends when every step down keeps an invariant under which the verdicts exist, and
makes a rank smaller. -/
theorem search_ok {R : Rules κ ε} {spent : ε} (keys : List κ) (Inv : List κ → Prop)
    (rank : List κ → Nat)
    (hstep : ∀ ws k, Inv ws → k ∈ keys → R.skip ws k = false → ∃ r, R.verdict ws k = .ok r ∧
      (r < 0 → R.enter (ws ++ [k]) = .ok () ∧ Inv (ws ++ [k]) ∧ rank (ws ++ [k]) < rank ws))
    (fuel : Nat) (ws ks : List κ) (hks : ∀ k ∈ ks, k ∈ keys) (hws : Inv ws)
    (hf : rank ws < fuel) : ∃ L, search R spent fuel ws ks = .ok L := by
  induction fuel generalizing ws ks with
  | zero => omega
  | succ fuel ih =>
    rw [search]
    induction ks with
    | nil => exact ⟨[], rfl⟩
    | cons k rest ihks =>
      obtain ⟨there, hthere⟩ := ihks (fun k hk => hks k (List.mem_cons_of_mem _ hk))
      cases hskip : R.skip ws k with
      | true => exact ⟨there, (searchLoop_skip hskip).trans hthere⟩
      | false =>
        obtain ⟨r, hr, hdown⟩ := hstep ws k hws (hks k List.mem_cons_self) hskip
        have hbelow : r < 0 → R.enter (ws ++ [k]) = .ok () ∧
            ∃ here, search R spent fuel (ws ++ [k]) (k :: rest) = .ok here := by
          intro hneg
          obtain ⟨henter, hinv, hrank⟩ := hdown hneg
          exact ⟨henter, ih _ _ hks hinv (by omega)⟩
        obtain ⟨here, hhere⟩ := branch_ok hbelow
        exact ⟨_, (searchLoop_eq_ok hskip).mpr ⟨r, here, there, hr, hhere, hthere, rfl⟩⟩

/-! ## Weights that add up to a target -/

/-- No key on the way from `ws` along `ys` is skipped. -/
def Unskipped (R : Rules κ ε) : List κ → List κ → Prop
  | _, [] => True
  | ws, k :: ys => R.skip ws k = false ∧ Unskipped R (ws ++ [k]) ys

/-- The skips are a filter of their own: the rest of the rules accepts what it accepts without
them. -/
theorem accepted_iff_unskipped {R S : Rules κ ε} (hverdict : S.verdict = R.verdict)
    (hskip : ∀ ws k, S.skip ws k = false) (ws ys : List κ) :
    Accepted R ws ys ↔ Unskipped R ws ys ∧ Accepted S ws ys := by
  induction ys generalizing ws with
  | nil => simp [Accepted]
  | cons k ys ih =>
    rw [Accepted, Accepted, Unskipped, hverdict, ih]
    simp only [hskip, true_and]
    constructor
    · rintro ⟨hk, ⟨rfl, hv⟩ | ⟨hv, hun, hacc⟩⟩
      · exact ⟨⟨hk, trivial⟩, Or.inl ⟨rfl, hv⟩⟩
      · exact ⟨⟨hk, hun⟩, Or.inr ⟨hv, hacc⟩⟩
    · rintro ⟨⟨hk, hun⟩, ⟨rfl, hv⟩ | ⟨hv, hacc⟩⟩
      · exact ⟨hk, Or.inl ⟨rfl, hv⟩⟩
      · exact ⟨hk, Or.inr ⟨hv, hun, hacc⟩⟩

section Weights

variable {W : Type} [AddCommMonoid W]

def total (weight : κ → W) (ws : List κ) : W := (ws.map weight).sum

@[simp] theorem total_nil (weight : κ → W) : total weight [] = 0 := rfl

@[simp] theorem total_cons (weight : κ → W) (k : κ) (ws : List κ) :
    total weight (k :: ws) = weight k + total weight ws := by
  simp [total]

@[simp] theorem total_append (weight : κ → W) (ws vs : List κ) :
    total weight (ws ++ vs) = total weight ws + total weight vs := by
  simp [total]

variable [PartialOrder W]

/-- The verdicts compare the total weight with the target. -/
def Weighs (R : Rules κ ε) (weight : κ → W) (target : W) (keys : List κ) : Prop :=
  ∀ ws k, ws ≠ [] → total weight ws < target → (∀ w ∈ ws, w ∈ keys) → k ∈ keys →
    R.skip ws k = false → ∃ r, R.verdict ws k = .ok r ∧
      (r = 0 ↔ total weight (ws ++ [k]) = target) ∧ (r < 0 ↔ total weight (ws ++ [k]) < target)

variable [IsOrderedCancelAddMonoid W]

/-- Nothing is lost by cutting: with positive weights, the rules accept exactly the sequences
that reach the target. -/
theorem accepted_iff_total {R : Rules κ ε} {weight : κ → W} {target : W} {keys : List κ}
    (hw : Weighs R weight target keys) (hpos : ∀ k ∈ keys, 0 < weight k) (ws ys : List κ)
    (hne : ws ≠ []) (hlt : total weight ws < target) (hws : ∀ w ∈ ws, w ∈ keys)
    (hys : ∀ y ∈ ys, y ∈ keys) :
    Accepted R ws ys ↔
      ys ≠ [] ∧ Unskipped R ws ys ∧ total weight ws + total weight ys = target := by
  induction ys generalizing ws with
  | nil => simp [Accepted]
  | cons k ys ih =>
    have hk : k ∈ keys := hys k List.mem_cons_self
    have hrest : ∀ y ∈ ys, y ∈ keys := fun y hy => hys y (List.mem_cons_of_mem _ hy)
    have hgrown : ∀ w ∈ ws ++ [k], w ∈ keys :=
      List.forall_mem_append.mpr ⟨hws, List.forall_mem_singleton.mpr hk⟩
    have hsum : total weight ws + total weight (k :: ys) =
        total weight (ws ++ [k]) + total weight ys := by
      simp [add_assoc]
    rw [Accepted, Unskipped, hsum]
    constructor
    · rintro ⟨hskip, hacc⟩
      obtain ⟨r, hr, hzero, hneg⟩ := hw ws k hne hlt hws hk hskip
      refine ⟨by simp, ?_⟩
      rcases hacc with ⟨rfl, hv⟩ | ⟨⟨s, hs, hv⟩, hacc⟩
      · rw [hr] at hv
        exact ⟨⟨hskip, trivial⟩, by simpa using hzero.mp (Except.ok.inj hv)⟩
      · rw [hr] at hv
        have hdown := hneg.mp (Except.ok.inj hv ▸ hs)
        obtain ⟨_, hun, ht⟩ := (ih _ (by simp) hdown hgrown hrest).mp hacc
        exact ⟨⟨hskip, hun⟩, ht⟩
    · rintro ⟨_, ⟨hskip, hun⟩, ht⟩
      obtain ⟨r, hr, hzero, hneg⟩ := hw ws k hne hlt hws hk hskip
      refine ⟨hskip, ?_⟩
      by_cases hys0 : ys = []
      · subst hys0
        exact Or.inl ⟨rfl, by rw [hr, hzero.mpr (by simpa using ht)]⟩
      · have hmore : 0 < total weight ys := by
          obtain ⟨y, zs, rfl⟩ := List.exists_cons_of_ne_nil hys0
          rw [total_cons]
          refine add_pos_of_pos_of_nonneg (hpos y (hrest y List.mem_cons_self)) ?_
          refine List.sum_nonneg fun v hv => ?_
          obtain ⟨z, hz, rfl⟩ := List.mem_map.mp hv
          exact (hpos z (hrest z (List.mem_cons_of_mem _ hz))).le
        have hdown : total weight (ws ++ [k]) < target := by
          rw [← ht]
          exact lt_add_of_pos_right _ hmore
        exact Or.inr ⟨⟨r, hneg.mpr hdown, hr⟩,
          (ih _ (by simp) hdown hgrown hrest).mpr ⟨hys0, hun, ht⟩⟩

end Weights

/-! ## Starts dealt out in turn -/

/-- What the search that starts at place `p` of the keys finds. -/
def FoundFrom (R : Rules κ ε) (ks : List κ) (p : Nat) (zs : List κ) : Prop :=
  ∃ k rest ys, ks.drop p = k :: rest ∧ zs = k :: ys ∧ Drawn (k :: rest) ys ∧ Accepted R [k] ys

theorem drawn_cons_place {k : κ} {ks ys : List κ} :
    Drawn ks (k :: ys) ↔ ∃ p rest, ks.drop p = k :: rest ∧ Drawn (k :: rest) ys := by
  constructor
  · intro h
    induction ks with
    | nil => cases h
    | cons l ks ih =>
      rcases drawn_cons_iff.mp h with h | ⟨zs, he, h⟩
      · obtain ⟨p, rest, hp, hd⟩ := ih h
        exact ⟨p + 1, rest, by simpa using hp, hd⟩
      · obtain ⟨rfl, rfl⟩ := List.cons.inj he
        exact ⟨0, ks, rfl, h⟩
  · rintro ⟨p, rest, hp, hd⟩
    exact (Drawn.take hd).suffix (hp ▸ List.drop_suffix p ks)

theorem getElem?_of_drop {k : κ} {ks rest : List κ} {p : Nat} (h : ks.drop p = k :: rest) :
    ks[p]? = some k := by
  rw [← List.head?_drop, h, List.head?_cons]

/-- Without duplicate keys, what is drawn from a place is what is drawn and starts with its key. -/
theorem drawn_from_place {ks : List κ} (hks : ks.Nodup) {p : Nat} {k : κ} {ys : List κ} :
    (∃ rest, ks.drop p = k :: rest ∧ Drawn (k :: rest) ys) ↔
      ks[p]? = some k ∧ Drawn ks (k :: ys) := by
  constructor
  · rintro ⟨rest, hp, hd⟩
    exact ⟨getElem?_of_drop hp, drawn_cons_place.mpr ⟨p, rest, hp, hd⟩⟩
  · rintro ⟨hp, hd⟩
    obtain ⟨q, rest, hq, hd⟩ := drawn_cons_place.mp hd
    obtain ⟨hlt, -⟩ := List.getElem?_eq_some_iff.mp hp
    obtain rfl := (List.getElem?_inj hlt hks).mp (hp.trans (getElem?_of_drop hq).symm)
    exact ⟨rest, hq, hd⟩

/-- The searches from all places together find what is drawn from the keys and accepted. -/
theorem exists_foundFrom {R : Rules κ ε} {ks zs : List κ} :
    (∃ p, FoundFrom R ks p zs) ↔ ∃ k ys, zs = k :: ys ∧ Drawn ks zs ∧ Accepted R [k] ys := by
  constructor
  · rintro ⟨p, k, rest, ys, hp, rfl, hd, hacc⟩
    exact ⟨k, ys, rfl, drawn_cons_place.mpr ⟨p, rest, hp, hd⟩, hacc⟩
  · rintro ⟨k, ys, rfl, hd, hacc⟩
    obtain ⟨p, rest, hp, hd⟩ := drawn_cons_place.mp hd
    exact ⟨p, k, rest, ys, hp, rfl, hd, hacc⟩

/-- Of distinct keys, a sequence is found from the place of its first key only. -/
theorem foundFrom_iff_place {R : Rules κ ε} {ks zs : List κ} (hks : ks.Nodup) (p : Nat) :
    FoundFrom R ks p zs ↔ (∃ q, FoundFrom R ks q zs) ∧ ks[p]? = zs.head? := by
  constructor
  · intro h
    refine ⟨⟨p, h⟩, ?_⟩
    obtain ⟨k, rest, ys, hp, rfl, -⟩ := h
    exact getElem?_of_drop hp
  · rintro ⟨⟨q, k, rest, ys, hq, rfl, hd, hacc⟩, hp⟩
    obtain ⟨rest', hp', hd'⟩ :=
      (drawn_from_place hks).mpr ⟨hp, drawn_cons_place.mpr ⟨q, rest, hq, hd⟩⟩
    exact ⟨k, rest', ys, hp', rfl, hd', hacc⟩

theorem foundFrom_drop {R : Rules κ ε} {ks : List κ} {p q : Nat} {zs : List κ} :
    FoundFrom R (ks.drop p) q zs ↔ FoundFrom R ks (p + q) zs := by
  simp [FoundFrom, List.drop_drop]

/-- Two searches that find one sequence start at the same place. -/
theorem foundFrom_place {R : Rules κ ε} {ks : List κ} (hks : ks.Nodup) {p q : Nat}
    {zs : List κ} (hp : FoundFrom R ks p zs) (hq : FoundFrom R ks q zs) : p = q := by
  obtain ⟨k, rest, ys, hp, rfl, _⟩ := hp
  obtain ⟨k', rest', ys', hq, he, _⟩ := hq
  obtain ⟨rfl, rfl⟩ := List.cons.inj he
  obtain ⟨hlt, -⟩ := List.getElem?_eq_some_iff.mp (getElem?_of_drop hp)
  exact (List.getElem?_inj hlt hks).mp ((getElem?_of_drop hp).trans (getElem?_of_drop hq).symm)

/-- A sweep that ends finds what the searches from every `stride`-th place find. -/
theorem mem_sweep {R : Rules κ ε} {spent : ε} {stuck : κ → Bool} {fuel stride : Nat} (n : Nat)
    (ks : List κ) {L : List (List κ)} (h : sweep R spent stuck fuel stride n ks = .ok L)
    (zs : List κ) : zs ∈ L ↔ ∃ j, FoundFrom R ks (j * stride) zs := by
  induction n generalizing ks L with
  | zero => cases h
  | succ n ih =>
    cases ks with
    | nil =>
      cases h
      simp [FoundFrom]
    | cons k rest =>
      obtain ⟨here, there, -, hhere, hthere, rfl⟩ := (sweep_eq_ok (not_stuck_of_sweep h)).mp h
      rw [List.mem_append, ih _ hthere, mem_search _ _ _ hhere]
      constructor
      · rintro (⟨ys, rfl, hdr, hacc⟩ | ⟨j, hj⟩)
        · exact ⟨0, k, rest, ys, by simp, rfl, hdr, hacc⟩
        · rw [foundFrom_drop] at hj
          exact ⟨j + 1, by rw [Nat.succ_mul, Nat.add_comm]; exact hj⟩
      · rintro ⟨j, hj⟩
        cases j with
        | zero =>
          obtain ⟨k', rest', ys, hd, rfl, hdr, hacc⟩ := hj
          rw [Nat.zero_mul, List.drop_zero] at hd
          obtain ⟨rfl, rfl⟩ := List.cons.inj hd
          exact Or.inl ⟨ys, rfl, hdr, hacc⟩
        | succ j =>
          refine Or.inr ⟨j, ?_⟩
          rw [foundFrom_drop]
          rw [Nat.succ_mul, Nat.add_comm] at hj
          exact hj

theorem nodup_sweep {R : Rules κ ε} {spent : ε} {stuck : κ → Bool} {fuel stride : Nat}
    (hstride : 0 < stride) (n : Nat) (ks : List κ) (hks : ks.Nodup) {L : List (List κ)}
    (h : sweep R spent stuck fuel stride n ks = .ok L) : L.Nodup := by
  induction n generalizing ks L with
  | zero => cases h
  | succ n ih =>
    cases ks with
    | nil =>
      cases h
      exact List.nodup_nil
    | cons k rest =>
      obtain ⟨here, there, -, hhere, hthere, rfl⟩ := (sweep_eq_ok (not_stuck_of_sweep h)).mp h
      refine List.Nodup.append (nodup_search _ _ _ hks hhere)
        (ih _ (hks.sublist (List.drop_sublist _ _)) hthere) ?_
      intro zs hz1 hz2
      obtain ⟨ys, rfl, hdr, hacc⟩ := (mem_search _ _ _ hhere zs).mp hz1
      obtain ⟨j, hj⟩ := (mem_sweep _ _ hthere _).mp hz2
      have h0 : FoundFrom R (k :: rest) 0 ([k] ++ ys) := ⟨k, rest, ys, rfl, rfl, hdr, hacc⟩
      have := foundFrom_place hks h0 (foundFrom_drop.mp hj)
      omega

/-- A sweep ends when no start is stuck and every search ends. -/
theorem sweep_ok {R : Rules κ ε} {spent : ε} {stuck : κ → Bool} {fuel stride : Nat}
    (hstride : 0 < stride) (n : Nat) (ks : List κ) (hn : ks.length < n)
    (hks : ∀ k ∈ ks, stuck k = false ∧ R.enter [k] = .ok ())
    (hsearch : ∀ k ls, (∀ l ∈ k :: ls, l ∈ ks) → ∃ L, search R spent fuel [k] (k :: ls) = .ok L) :
    ∃ L, sweep R spent stuck fuel stride n ks = .ok L := by
  induction n generalizing ks with
  | zero => omega
  | succ n ih =>
    cases ks with
    | nil => exact ⟨[], rfl⟩
    | cons k rest =>
      obtain ⟨hst, hen⟩ := hks k List.mem_cons_self
      have hsub : ∀ l ∈ (k :: rest).drop stride, l ∈ k :: rest := fun l hl =>
        List.mem_of_mem_drop hl
      obtain ⟨here, hhere⟩ := hsearch k rest (fun l hl => hl)
      obtain ⟨there, hthere⟩ := ih ((k :: rest).drop stride)
        (by rw [List.length_drop, List.length_cons] at *; omega)
        (fun l hl => hks l (hsub l hl))
        (fun l ls hl => hsearch l ls (fun m hm => hsub m (hl m hm)))
      exact ⟨_, (sweep_eq_ok hst).mpr ⟨here, there, hen, hhere, hthere, rfl⟩⟩

/-- Sweeps from the first `stride` places, in any order, share the starts: together they find
what the searches from all places find, and nothing twice. -/
theorem dealt_sweeps {R : Rules κ ε} {ks : List κ} (hks : ks.Nodup) {stride : Nat}
    (hstride : 0 < stride) {order : List Nat} (horder : order.Perm (List.range stride))
    {L : Nat → List (List κ)}
    (hmem : ∀ t zs, zs ∈ L t ↔ ∃ j, FoundFrom R (ks.drop t) (j * stride) zs)
    (hnodup : ∀ t, (L t).Nodup) :
    (order.flatMap L).Nodup ∧ ∀ zs, zs ∈ order.flatMap L ↔ ∃ p, FoundFrom R ks p zs := by
  have hplace : ∀ t zs, zs ∈ L t ↔ ∃ j, FoundFrom R ks (t + j * stride) zs := by
    intro t zs
    simp only [hmem, foundFrom_drop]
  constructor
  · rw [List.nodup_flatMap]
    refine ⟨fun t _ => hnodup t, ?_⟩
    have hdistinct : order.Nodup := horder.nodup_iff.mpr List.nodup_range
    refine hdistinct.imp_of_mem fun {a b} ha hb hab zs hza hzb => hab ?_
    obtain ⟨i, hi⟩ := (hplace a zs).mp hza
    obtain ⟨j, hj⟩ := (hplace b zs).mp hzb
    have hal : a < stride := List.mem_range.mp (horder.mem_iff.mp ha)
    have hbl : b < stride := List.mem_range.mp (horder.mem_iff.mp hb)
    have hmod := congrArg (· % stride) (foundFrom_place hks hi hj)
    simpa [Nat.add_mul_mod_self_right, Nat.mod_eq_of_lt hal, Nat.mod_eq_of_lt hbl] using hmod
  · intro zs
    simp only [List.mem_flatMap, hplace]
    constructor
    · rintro ⟨t, _, j, hj⟩
      exact ⟨_, hj⟩
    · rintro ⟨p, hp⟩
      exact ⟨p % stride, horder.mem_iff.mpr (List.mem_range.mpr (Nat.mod_lt _ hstride)),
        p / stride, by rwa [Nat.mul_comm, Nat.mod_add_div]⟩

/-! ## Fewer keys -/

theorem drawn_filter {p : κ → Bool} {ks ys : List κ} :
    Drawn (ks.filter p) ys ↔ Drawn ks ys ∧ ∀ y ∈ ys, p y = true := by
  constructor
  · intro h
    refine ⟨?_, fun y hy => (List.mem_filter.mp (h.mem y hy)).2⟩
    induction ks generalizing ys with
    | nil => exact h
    | cons k ks ih =>
      by_cases hk : p k = true
      · rw [List.filter_cons_of_pos hk] at h
        induction ys with
        | nil => exact Drawn.nil _
        | cons y ys ihy =>
          rcases drawn_cons_iff.mp h with h | ⟨zs, heq, h⟩
          · exact Drawn.skip (ih h)
          · cases heq
            exact Drawn.take (ihy h)
      · rw [List.filter_cons_of_neg hk] at h
        exact Drawn.skip (ih h)
  · rintro ⟨h, hys⟩
    induction h with
    | nil => exact Drawn.nil _
    | @skip k ks ys _ ih =>
      by_cases hk : p k = true
      · rw [List.filter_cons_of_pos hk]
        exact Drawn.skip (ih hys)
      · rw [List.filter_cons_of_neg hk]
        exact ih hys
    | @take k ks ys _ ih =>
      have hrest := ih fun y hy => hys y (List.mem_cons_of_mem _ hy)
      have hk : p k = true := hys k List.mem_cons_self
      rw [List.filter_cons_of_pos hk] at hrest ⊢
      exact Drawn.take hrest

/-- A search that ends also ends on fewer keys, for it makes some of the same steps. -/
theorem search_sublist {R : Rules κ ε} {spent : ε} (fuel : Nat) {ws ks ks' : List κ}
    (hsub : ks'.Sublist ks) {L : List (List κ)} (h : search R spent fuel ws ks = .ok L) :
    ∃ L', search R spent fuel ws ks' = .ok L' := by
  induction fuel generalizing ws ks ks' L with
  | zero => cases h
  | succ fuel ih =>
    unfold search at h ⊢
    induction hsub generalizing L with
    | slnil => exact ⟨_, h⟩
    | cons k _ ihs =>
      cases hskip : R.skip ws k with
      | true => exact ihs (searchLoop_skip hskip ▸ h)
      | false =>
        obtain ⟨_, _, there, -, -, hthere, -⟩ := (searchLoop_eq_ok hskip).mp h
        exact ihs hthere
    | @cons_cons ks₁ ks₂ k hsub ihs =>
      cases hskip : R.skip ws k with
      | true =>
        rw [searchLoop_skip hskip] at h ⊢
        exact ihs h
      | false =>
        obtain ⟨r, here, there, hr, hhere, hthere, -⟩ := (searchLoop_eq_ok hskip).mp h
        obtain ⟨there', hthere'⟩ := ihs hthere
        have hdown : r < 0 → R.enter (ws ++ [k]) = .ok () ∧
            ∃ here', search R spent fuel (ws ++ [k]) (k :: ks₁) = .ok here' := by
          intro hneg
          rcases branch_eq_ok.mp hhere with ⟨hzero, -⟩ | ⟨-, henter, hdeep⟩ | ⟨hpos, -⟩
          · exact absurd hzero hneg.ne
          · exact ⟨henter, ih (hsub.cons_cons k) hdeep⟩
          · exact absurd hneg hpos.not_gt
        obtain ⟨here', hhere'⟩ := branch_ok hdown
        exact ⟨_, (searchLoop_eq_ok hskip).mpr ⟨r, here', there', hr, hhere', hthere', rfl⟩⟩

/-- `S` decides as `R` does, and can enter wherever `R` can. -/
structure Widens (R S : Rules κ ε) : Prop where
  skip_eq : S.skip = R.skip
  verdict_eq : S.verdict = R.verdict
  enter_ok : ∀ ws, R.enter ws = .ok () → S.enter ws = .ok ()

/-- A search that ends finds the same with more fuel, and where it can enter more. -/
theorem search_widens {R S : Rules κ ε} (hRS : Widens R S) {spent : ε} {fuel fuel' : Nat}
    (hfuel : fuel ≤ fuel') {ws ks : List κ} {L : List (List κ)}
    (h : search R spent fuel ws ks = .ok L) : search S spent fuel' ws ks = .ok L := by
  induction fuel generalizing fuel' ws ks L with
  | zero => cases h
  | succ fuel ih =>
    obtain ⟨m, rfl⟩ : ∃ m, fuel' = m + 1 := ⟨fuel' - 1, by omega⟩
    unfold search at h ⊢
    induction ks generalizing L with
    | nil => exact h
    | cons k rest ihks =>
      have hskip_eq : S.skip ws k = R.skip ws k := by rw [hRS.skip_eq]
      cases hskip : R.skip ws k with
      | true =>
        rw [searchLoop_skip hskip] at h
        rw [searchLoop_skip (hskip_eq.trans hskip)]
        exact ihks h
      | false =>
        obtain ⟨r, here, there, hr, hhere, hthere, rfl⟩ := (searchLoop_eq_ok hskip).mp h
        have hbranch : branch S (search S spent m) ws k rest r = .ok here := by
          rw [branch_eq_ok] at hhere ⊢
          refine hhere.imp_right (Or.imp_left ?_)
          rintro ⟨hneg, henter, hdeep⟩
          exact ⟨hneg, hRS.enter_ok _ henter, ih (by omega) hdeep⟩
        refine (searchLoop_eq_ok (hskip_eq.trans hskip)).mpr
          ⟨r, here, there, ?_, hbranch, ihks hthere, rfl⟩
        rw [hRS.verdict_eq]
        exact hr

/-- So does a sweep, which may also take more turns. -/
theorem sweep_widens {R S : Rules κ ε} (hRS : Widens R S) {spent : ε} {stuck : κ → Bool}
    {fuel fuel' stride n n' : Nat} (hfuel : fuel ≤ fuel') (hn : n ≤ n') {ks : List κ}
    {L : List (List κ)} (h : sweep R spent stuck fuel stride n ks = .ok L) :
    sweep S spent stuck fuel' stride n' ks = .ok L := by
  induction n generalizing n' ks L with
  | zero => cases h
  | succ n ih =>
    obtain ⟨m, rfl⟩ : ∃ m, n' = m + 1 := ⟨n' - 1, by omega⟩
    cases ks with
    | nil => exact h
    | cons k rest =>
      have hstuck := not_stuck_of_sweep h
      obtain ⟨here, there, henter, hhere, hthere, rfl⟩ := (sweep_eq_ok hstuck).mp h
      exact (sweep_eq_ok hstuck).mpr ⟨here, there, hRS.enter_ok _ henter,
        search_widens hRS hfuel hhere, ih (by omega) hthere, rfl⟩

/-- A sweep over all starts that ends also ends on fewer keys, and with more turns. -/
theorem sweep_sublist {R : Rules κ ε} {spent : ε} {stuck : κ → Bool} {fuel : Nat} {n n' : Nat}
    (hn : n ≤ n') {ks ks' : List κ} (hsub : ks'.Sublist ks) {L : List (List κ)}
    (h : sweep R spent stuck fuel 1 n ks = .ok L) :
    ∃ L', sweep R spent stuck fuel 1 n' ks' = .ok L' := by
  induction n generalizing n' ks ks' L with
  | zero => cases h
  | succ n ih =>
    obtain ⟨m, rfl⟩ : ∃ m, n' = m + 1 := ⟨n' - 1, by omega⟩
    cases hsub with
    | slnil => exact ⟨[], rfl⟩
    | @cons _ ks k hsub =>
      obtain ⟨_, there, -, -, hthere, -⟩ := (sweep_eq_ok (not_stuck_of_sweep h)).mp h
      exact ih (Nat.le_of_succ_le hn) hsub hthere
    | @cons_cons ks₁ ks₂ k hsub =>
      have hstuck := not_stuck_of_sweep h
      obtain ⟨here, there, henter, hhere, hthere, -⟩ := (sweep_eq_ok hstuck).mp h
      obtain ⟨here', hhere'⟩ := search_sublist fuel (hsub.cons_cons k) hhere
      obtain ⟨there', hthere'⟩ := ih (Nat.le_of_succ_le_succ hn) hsub hthere
      exact ⟨_, (sweep_eq_ok hstuck).mpr ⟨here', there', henter, hhere', hthere', rfl⟩⟩

/-- A sweep over all starts finds what is drawn from the keys and accepted. -/
theorem mem_sweep_all {R : Rules κ ε} {spent : ε} {stuck : κ → Bool} {fuel n : Nat}
    {ks : List κ} {L : List (List κ)} (h : sweep R spent stuck fuel 1 n ks = .ok L)
    (zs : List κ) : zs ∈ L ↔ ∃ k ys, zs = k :: ys ∧ Drawn ks zs ∧ Accepted R [k] ys := by
  rw [mem_sweep n ks h, ← exists_foundFrom]
  simp only [Nat.mul_one]

/-- With fewer keys, a sweep over all starts finds what it found before with these keys only. -/
theorem mem_sweep_filter {R : Rules κ ε} {spent : ε} {stuck : κ → Bool} {fuel n : Nat}
    {ks : List κ} {p : κ → Bool} {L L' : List (List κ)}
    (h : sweep R spent stuck fuel 1 n ks = .ok L)
    (h' : sweep R spent stuck fuel 1 n (ks.filter p) = .ok L') (zs : List κ) :
    zs ∈ L' ↔ zs ∈ L ∧ ∀ z ∈ zs, p z = true := by
  rw [mem_sweep_all h, mem_sweep_all h']
  simp only [drawn_filter]
  constructor
  · rintro ⟨k, ys, rfl, ⟨hdrawn, hp⟩, hacc⟩
    exact ⟨⟨k, ys, rfl, hdrawn, hacc⟩, hp⟩
  · rintro ⟨⟨k, ys, rfl, hdrawn, hacc⟩, hp⟩
    exact ⟨k, ys, rfl, ⟨hdrawn, hp⟩, hacc⟩

end pruned_search
