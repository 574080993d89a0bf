-- The turns of a pruned search: the questions that it asks, in its order, up to
-- the one that fails. The laws: which turns a search gets to, and that a
-- property of turns that keeps them from failing holds of the turns of a run
-- exactly when it holds of all turns that a run could get to.
import Anagram.General.PrunedSearch
import Anagram.General.Traced

open outcome traced

namespace pruned_search

variable {κ ε : Type}

/-- A turn of a search: it starts from a key, or asks about the next key of a sequence. -/
inductive Turn (κ : Type)
  | start (k : κ)
  | next (ws : List κ) (k : κ)

/-- A computation of a search, with the turns that it takes. -/
abbrev InTurns (κ ε α : Type) := Traced (Turn κ) ε α

def branchInTurns (R : Rules κ ε) (deeper : List κ → List κ → InTurns κ ε (List (List κ)))
    (ws : List κ) (k : κ) (rest : List κ) (r : Int) : InTurns κ ε (List (List κ)) :=
  if r = 0 then pure [ws ++ [k]]
  else if r < 0 then do
    quiet (R.enter (ws ++ [k]))
    deeper (ws ++ [k]) (k :: rest)
  else pure []

def searchLoopInTurns (R : Rules κ ε) (deeper : List κ → List κ → InTurns κ ε (List (List κ)))
    (ws : List κ) : List κ → InTurns κ ε (List (List κ))
  | [] => pure []
  | k :: rest =>
    if R.skip ws k then searchLoopInTurns R deeper ws rest
    else do
      let r ← note (.next ws k) (R.verdict ws k)
      let here ← branchInTurns R deeper ws k rest r
      let there ← searchLoopInTurns R deeper ws rest
      pure (here ++ there)

def searchInTurns (R : Rules κ ε) (spent : ε) :
    Nat → List κ → List κ → InTurns κ ε (List (List κ))
  | 0, _, _ => quiet (.error spent)
  | fuel + 1, ws, ks => searchLoopInTurns R (searchInTurns R spent fuel) ws ks

def sweepInTurns (R : Rules κ ε) (spent : ε) (stuck : κ → Bool) (fuel stride : Nat) :
    Nat → List κ → InTurns κ ε (List (List κ))
  | 0, _ => quiet (.error spent)
  | _ + 1, [] => pure []
  | n + 1, k :: rest =>
    if stuck k then sweepInTurns R spent stuck fuel stride n (k :: rest)
    else do
      note (.start k) (R.enter [k])
      let here ← searchInTurns R spent fuel [k] (k :: rest)
      let there ← sweepInTurns R spent stuck fuel stride n ((k :: rest).drop stride)
      pure (here ++ there)

/-! ## Without the turns, the search is the same -/

theorem result_branchInTurns {R : Rules κ ε}
    {deeper : List κ → List κ → InTurns κ ε (List (List κ))}
    {deeper' : List κ → List κ → Except ε (List (List κ))}
    (hdeeper : ∀ ws ks, (deeper ws ks).result = deeper' ws ks) (ws : List κ) (k : κ)
    (rest : List κ) (r : Int) :
    (branchInTurns R deeper ws k rest r).result = branch R deeper' ws k rest r := by
  unfold branchInTurns branch
  split_ifs
  · rfl
  · rw [result_bind, result_quiet]
    simp only [hdeeper]
  · rfl

theorem result_searchLoopInTurns {R : Rules κ ε}
    {deeper : List κ → List κ → InTurns κ ε (List (List κ))}
    {deeper' : List κ → List κ → Except ε (List (List κ))}
    (hdeeper : ∀ ws ks, (deeper ws ks).result = deeper' ws ks) (ws ks : List κ) :
    (searchLoopInTurns R deeper ws ks).result = searchLoop R deeper' ws ks := by
  induction ks with
  | nil => rfl
  | cons k rest ih =>
    unfold searchLoopInTurns searchLoop
    split_ifs
    · exact ih
    · simp only [result_bind, result_note, result_branchInTurns hdeeper, ih, result_pure]

@[simp] theorem result_searchInTurns (R : Rules κ ε) (spent : ε) (fuel : Nat) (ws ks : List κ) :
    (searchInTurns R spent fuel ws ks).result = search R spent fuel ws ks := by
  induction fuel generalizing ws ks with
  | zero => rfl
  | succ fuel ih => exact result_searchLoopInTurns ih ws ks

@[simp] theorem result_sweepInTurns (R : Rules κ ε) (spent : ε) (stuck : κ → Bool)
    (fuel stride n : Nat) (ks : List κ) :
    (sweepInTurns R spent stuck fuel stride n ks).result =
      sweep R spent stuck fuel stride n ks := by
  induction n generalizing ks with
  | zero => rfl
  | succ n ih =>
    cases ks with
    | nil => rfl
    | cons k rest =>
      unfold sweepInTurns sweep
      split_ifs
      · exact ih _
      · simp only [result_bind, result_note, result_searchInTurns, ih, result_pure]

/-! ## The turns of one key -/

section
variable {R : Rules κ ε} {deeper : List κ → List κ → InTurns κ ε (List (List κ))}
  {deeper' : List κ → List κ → Except ε (List (List κ))} {ws rest : List κ} {k : κ} {t : Turn κ}

/-- A branch takes the turns of the search that it goes down to. -/
theorem mem_branchInTurns {r : Int} : t ∈ (branchInTurns R deeper ws k rest r).steps ↔
    r < 0 ∧ R.enter (ws ++ [k]) = .ok () ∧ t ∈ (deeper (ws ++ [k]) (k :: rest)).steps := by
  unfold branchInTurns
  split_ifs with hzero hneg
  · simp [hzero]
  · rw [mem_steps_bind]
    simp only [steps_quiet, result_quiet, List.not_mem_nil, false_or, hneg, true_and]
    exact ⟨fun ⟨_, h⟩ => h, fun h => ⟨(), h⟩⟩
  · simp [hneg]

theorem searchLoopInTurns_skip (hskip : R.skip ws k = true) :
    searchLoopInTurns R deeper ws (k :: rest) = searchLoopInTurns R deeper ws rest := by
  rw [searchLoopInTurns, if_pos hskip]

/-- A loop asks about its first key, and then takes the turns of the branch and those of the later
keys, unless something fails before. -/
theorem mem_searchLoopInTurns (hdeeper : ∀ ws ks, (deeper ws ks).result = deeper' ws ks)
    (hskip : R.skip ws k = false) : t ∈ (searchLoopInTurns R deeper ws (k :: rest)).steps ↔
      t = .next ws k ∨ ∃ r, R.verdict ws k = .ok r ∧
        ((r < 0 ∧ R.enter (ws ++ [k]) = .ok () ∧ t ∈ (deeper (ws ++ [k]) (k :: rest)).steps) ∨
          ∃ here, branch R deeper' ws k rest r = .ok here ∧
            t ∈ (searchLoopInTurns R deeper ws rest).steps) := by
  rw [searchLoopInTurns, if_neg (by simp [hskip])]
  simp only [mem_steps_bind, steps_note, result_note, List.mem_singleton, mem_branchInTurns,
    result_branchInTurns hdeeper, steps_pure, List.not_mem_nil, and_false, exists_false, or_false]

end

section
variable {R : Rules κ ε} {spent : ε} {stuck : κ → Bool} {fuel stride n : Nat} {k : κ}
  {rest : List κ} {t : Turn κ}

/-- A sweep starts from its first key, and then takes the turns of the search from there and those
of the later starts, unless something fails before. -/
theorem mem_sweepInTurns (hstuck : stuck k = false) :
    t ∈ (sweepInTurns R spent stuck fuel stride (n + 1) (k :: rest)).steps ↔
      t = .start k ∨ (R.enter [k] = .ok () ∧
        (t ∈ (searchInTurns R spent fuel [k] (k :: rest)).steps ∨
          ∃ here, search R spent fuel [k] (k :: rest) = .ok here ∧
            t ∈ (sweepInTurns R spent stuck fuel stride n ((k :: rest).drop stride)).steps)) := by
  rw [sweepInTurns, if_neg (by simp [hstuck])]
  simp only [mem_steps_bind, steps_note, result_note, List.mem_singleton, result_searchInTurns,
    steps_pure, List.not_mem_nil, and_false, exists_false, or_false]
  exact or_congr_right ⟨fun ⟨_, h⟩ => h, fun h => ⟨(), h⟩⟩

/-- No sweep takes a turn from a start that is stuck. -/
theorem not_stuck_of_turn {ks : List κ}
    (h : t ∈ (sweepInTurns R spent stuck fuel stride n (k :: ks)).steps) : stuck k = false := by
  induction n with
  | zero => cases h
  | succ n ih =>
    unfold sweepInTurns at h
    split_ifs at h with hstuck
    · exact ih h
    · simpa using hstuck

end

/-! ## The turns that a search gets to -/

/-- The rules let `ws` grow by `ys`, key by key, and go on after the last one. -/
def Descends (R : Rules κ ε) : List κ → List κ → Prop
  | _, [] => True
  | ws, k :: ys => R.skip ws k = false ∧ (∃ r < 0, R.verdict ws k = .ok r) ∧
      Descends R (ws ++ [k]) ys

/-- The search from `ws` gets to the turn, when nothing fails before it. -/
def Gets (R : Rules κ ε) (ws ks : List κ) (t : Turn κ) : Prop :=
  ∃ ys k, t = .next (ws ++ ys) k ∧ Drawn ks (ys ++ [k]) ∧ Descends R ws ys ∧
    R.skip (ws ++ ys) k = false

/-- The sweep gets to the turn, when nothing fails before it. -/
def SweepGets (R : Rules κ ε) (stride : Nat) (ks : List κ) (t : Turn κ) : Prop :=
  ∃ j k rest, ks.drop (j * stride) = k :: rest ∧ (t = .start k ∨ Gets R [k] (k :: rest) t)

theorem descends_append {R : Rules κ ε} (ws ys zs : List κ) :
    Descends R ws (ys ++ zs) ↔ Descends R ws ys ∧ Descends R (ws ++ ys) zs := by
  induction ys generalizing ws with
  | nil => simp [Descends]
  | cons y ys ih => simp only [List.cons_append, Descends, ih, List.append_assoc,
      List.nil_append, and_assoc]

theorem unskipped_append {R : Rules κ ε} (ws ys zs : List κ) :
    Unskipped R ws (ys ++ zs) ↔ Unskipped R ws ys ∧ Unskipped R (ws ++ ys) zs := by
  induction ys generalizing ws with
  | nil => simp [Unskipped]
  | cons y ys ih => simp only [List.cons_append, Unskipped, ih, List.append_assoc,
      List.nil_append, and_assoc]

theorem Descends.unskipped {R : Rules κ ε} {ws ys : List κ} (h : Descends R ws ys) :
    Unskipped R ws ys := by
  induction ys generalizing ws with
  | nil => trivial
  | cons y ys ih => exact ⟨h.1, ih h.2.2⟩

theorem Drawn.of_append {ks ys zs : List κ} (h : Drawn ks (ys ++ zs)) : Drawn ks ys := by
  induction ks generalizing ys with
  | nil =>
    cases ys with
    | nil => exact Drawn.nil _
    | cons y ys => exact absurd (h.mem y (by simp)) (by simp)
  | cons k ks ih =>
    induction ys with
    | nil => exact Drawn.nil _
    | cons y ys ihy =>
      rcases drawn_cons_iff.mp h with h | ⟨vs, heq, h⟩
      · exact Drawn.skip (ih h)
      · obtain ⟨rfl, rfl⟩ := List.cons.inj heq
        exact Drawn.take (ihy h)

theorem Gets.skip {R : Rules κ ε} {ws ks : List κ} {k : κ} {t : Turn κ} (h : Gets R ws ks t) :
    Gets R ws (k :: ks) t := by
  obtain ⟨ys, l, rfl, hdrawn, hdesc, hskip⟩ := h
  exact ⟨ys, l, rfl, Drawn.skip hdrawn, hdesc, hskip⟩

/-- A turn below a key that the rules go on from. -/
theorem Gets.deeper {R : Rules κ ε} {ws rest : List κ} {k : κ} {t : Turn κ} {r : Int}
    (hskip : R.skip ws k = false) (hr : R.verdict ws k = .ok r) (hneg : r < 0)
    (h : Gets R (ws ++ [k]) (k :: rest) t) : Gets R ws (k :: rest) t := by
  obtain ⟨ys, l, rfl, hdrawn, hdesc, hlast⟩ := h
  refine ⟨k :: ys, l, by simp, Drawn.take hdrawn, ⟨hskip, ⟨r, hneg, hr⟩, hdesc⟩, ?_⟩
  simpa using hlast

/-- Every turn is the first one of its key, one below it, or one of the later keys. -/
theorem gets_cons {R : Rules κ ε} {ws rest : List κ} {k : κ} {t : Turn κ}
    (h : Gets R ws (k :: rest) t) :
    Gets R ws rest t ∨ (R.skip ws k = false ∧ (t = .next ws k ∨
      ((∃ r < 0, R.verdict ws k = .ok r) ∧ Gets R (ws ++ [k]) (k :: rest) t))) := by
  obtain ⟨ys, l, rfl, hdrawn, hdesc, hskip⟩ := h
  rcases drawn_cons_iff.mp hdrawn with hlater | ⟨zs, heq, hhere⟩
  · exact Or.inl ⟨ys, l, rfl, hlater, hdesc, hskip⟩
  · right
    cases ys with
    | nil =>
      obtain ⟨rfl, rfl⟩ := List.cons.inj heq
      rw [List.append_nil] at hskip ⊢
      exact ⟨hskip, Or.inl rfl⟩
    | cons y ys =>
      obtain ⟨rfl, rfl⟩ := List.cons.inj heq
      obtain ⟨hfirst, hneg, hdesc⟩ := hdesc
      refine ⟨hfirst, Or.inr ⟨hneg, ys, l, by simp, hhere, hdesc, ?_⟩⟩
      simpa using hskip

theorem gets_of_mem_loop {R : Rules κ ε}
    {deeper : List κ → List κ → InTurns κ ε (List (List κ))}
    (hd : ∀ ws ks t, t ∈ (deeper ws ks).steps → Gets R ws ks t) (ws ks : List κ) {t : Turn κ}
    (h : t ∈ (searchLoopInTurns R deeper ws ks).steps) : Gets R ws ks t := by
  induction ks with
  | nil => simp [searchLoopInTurns] at h
  | cons k rest ih =>
    cases hskip : R.skip ws k with
    | true => exact (ih (searchLoopInTurns_skip hskip ▸ h)).skip
    | false =>
      rw [mem_searchLoopInTurns (fun _ _ => rfl) hskip] at h
      rcases h with rfl | ⟨r, hr, ⟨hneg, -, hdeep⟩ | ⟨_, -, hthere⟩⟩
      · exact ⟨[], k, by simp, Drawn.take (Drawn.nil _), trivial, by simpa using hskip⟩
      · exact (hd _ _ _ hdeep).deeper hskip hr hneg
      · exact (ih hthere).skip

/-- A search takes only turns that it gets to. -/
theorem gets_of_mem_search {R : Rules κ ε} {spent : ε} (fuel : Nat) (ws ks : List κ)
    {t : Turn κ} (h : t ∈ (searchInTurns R spent fuel ws ks).steps) : Gets R ws ks t := by
  induction fuel generalizing ws ks t with
  | zero => simp [searchInTurns] at h
  | succ fuel ih => exact gets_of_mem_loop (fun ws ks t ht => ih ws ks ht) ws ks h

theorem gets_of_mem_sweep {R : Rules κ ε} {spent : ε} {stuck : κ → Bool} {fuel stride : Nat}
    (n : Nat) (ks : List κ) {t : Turn κ}
    (h : t ∈ (sweepInTurns R spent stuck fuel stride n ks).steps) : SweepGets R stride ks t := by
  induction n generalizing ks with
  | zero => simp [sweepInTurns] at h
  | succ n ih =>
    cases ks with
    | nil => simp [sweepInTurns] at h
    | cons k rest =>
      rw [mem_sweepInTurns (not_stuck_of_turn h)] at h
      rcases h with rfl | ⟨-, hhere | ⟨_, -, hthere⟩⟩
      · exact ⟨0, k, rest, by simp, Or.inl rfl⟩
      · exact ⟨0, k, rest, by simp, Or.inr (gets_of_mem_search _ _ _ hhere)⟩
      · obtain ⟨j, l, ls, hj, ht⟩ := ih _ hthere
        rw [List.drop_drop] at hj
        exact ⟨j + 1, l, ls, by rw [Nat.succ_mul, Nat.add_comm]; exact hj, ht⟩

/-- The sequence of the turn has been entered. -/
def Entered (R : Rules κ ε) : Turn κ → Prop
  | .start _ => True
  | .next ws _ => R.enter ws = .ok ()

theorem entered_of_mem_search {R : Rules κ ε} {spent : ε} (fuel : Nat) (ws ks : List κ)
    (hws : R.enter ws = .ok ()) {t : Turn κ}
    (h : t ∈ (searchInTurns R spent fuel ws ks).steps) : Entered R t := by
  induction fuel generalizing ws ks t with
  | zero => simp [searchInTurns] at h
  | succ fuel ih =>
    unfold searchInTurns at h
    induction ks with
    | nil => simp [searchLoopInTurns] at h
    | cons k rest ihks =>
      cases hskip : R.skip ws k with
      | true => exact ihks (searchLoopInTurns_skip hskip ▸ h)
      | false =>
        rw [mem_searchLoopInTurns (fun _ _ => rfl) hskip] at h
        rcases h with rfl | ⟨_, -, ⟨-, henter, hdeep⟩ | ⟨_, -, hthere⟩⟩
        · exact hws
        · exact ih _ _ henter hdeep
        · exact ihks hthere

/-- A sweep takes turns only from sequences that it has entered. -/
theorem entered_of_mem_sweep {R : Rules κ ε} {spent : ε} {stuck : κ → Bool} {fuel stride : Nat}
    (n : Nat) (ks : List κ) {t : Turn κ}
    (h : t ∈ (sweepInTurns R spent stuck fuel stride n ks).steps) : Entered R t := by
  induction n generalizing ks with
  | zero => simp [sweepInTurns] at h
  | succ n ih =>
    cases ks with
    | nil => simp [sweepInTurns] at h
    | cons k rest =>
      rw [mem_sweepInTurns (not_stuck_of_turn h)] at h
      rcases h with rfl | ⟨henter, hhere | ⟨_, -, hthere⟩⟩
      · trivial
      · exact entered_of_mem_search fuel [k] _ henter hhere
      · exact ih _ hthere

/-! ## A run takes all turns that it gets to -/

theorem mem_loop_of_gets {R : Rules κ ε}
    {deeper : List κ → List κ → InTurns κ ε (List (List κ))}
    {deeper' : List κ → List κ → Except ε (List (List κ))}
    (hdeeper : ∀ ws ks, (deeper ws ks).result = deeper' ws ks)
    (hd : ∀ ws ks L t, deeper' ws ks = .ok L → Gets R ws ks t → t ∈ (deeper ws ks).steps)
    (ws ks : List κ) {L : List (List κ)} (hL : searchLoop R deeper' ws ks = .ok L)
    {t : Turn κ} (h : Gets R ws ks t) : t ∈ (searchLoopInTurns R deeper ws ks).steps := by
  induction ks generalizing L with
  | nil =>
    obtain ⟨ys, k, rfl, hdrawn, -⟩ := h
    have hmem := hdrawn.mem k (by simp)
    simp at hmem
  | cons k rest ih =>
    have hcons := gets_cons h
    cases hskip : R.skip ws k with
    | true =>
      rw [searchLoop_skip hskip] at hL
      rw [searchLoopInTurns_skip hskip]
      rcases hcons with hlater | ⟨hfirst, -⟩
      · exact ih hL hlater
      · simp [hskip] at hfirst
    | false =>
      obtain ⟨r, here, there, hr, hhere, hthere, -⟩ := (searchLoop_eq_ok hskip).mp hL
      rw [mem_searchLoopInTurns hdeeper hskip]
      rcases hcons with hlater | ⟨-, rfl | ⟨⟨s, hneg, hs⟩, hbelow⟩⟩
      · exact Or.inr ⟨r, hr, Or.inr ⟨here, hhere, ih hthere hlater⟩⟩
      · exact Or.inl rfl
      · obtain rfl : r = s := Except.ok.inj (hr.symm.trans hs)
        rcases branch_eq_ok.mp hhere with ⟨hzero, -⟩ | ⟨-, henter, hdeep⟩ | ⟨hpos, -⟩
        · exact absurd hzero hneg.ne
        · exact Or.inr ⟨r, hr, Or.inl ⟨hneg, henter, hd _ _ _ _ hdeep hbelow⟩⟩
        · exact absurd hneg hpos.not_gt

/-- A search that ends takes every turn that it gets to. -/
theorem mem_search_of_gets {R : Rules κ ε} {spent : ε} (fuel : Nat) (ws ks : List κ)
    {L : List (List κ)} (hL : search R spent fuel ws ks = .ok L) {t : Turn κ}
    (h : Gets R ws ks t) : t ∈ (searchInTurns R spent fuel ws ks).steps := by
  induction fuel generalizing ws ks L t with
  | zero => cases hL
  | succ fuel ih =>
    exact mem_loop_of_gets (result_searchInTurns R spent fuel)
      (fun ws ks L t hdeep ht => ih ws ks hdeep ht) ws ks hL h

theorem mem_sweep_of_gets {R : Rules κ ε} {spent : ε} {stuck : κ → Bool} {fuel stride : Nat}
    (n : Nat) (ks : List κ) {L : List (List κ)}
    (hL : sweep R spent stuck fuel stride n ks = .ok L) {t : Turn κ}
    (h : SweepGets R stride ks t) : t ∈ (sweepInTurns R spent stuck fuel stride n ks).steps := by
  induction n generalizing ks L with
  | zero => cases hL
  | succ n ih =>
    cases ks with
    | nil =>
      obtain ⟨j, k, rest, hj, -⟩ := h
      simp at hj
    | cons k rest =>
      have hstuck := not_stuck_of_sweep hL
      obtain ⟨here, there, henter, hhere, hthere, -⟩ := (sweep_eq_ok hstuck).mp hL
      rw [mem_sweepInTurns hstuck]
      obtain ⟨j, l, ls, hj, ht⟩ := h
      cases j with
      | zero =>
        rw [Nat.zero_mul, List.drop_zero] at hj
        obtain ⟨rfl, rfl⟩ := List.cons.inj hj
        rcases ht with rfl | ht
        · exact Or.inl rfl
        · exact Or.inr ⟨henter, Or.inl (mem_search_of_gets _ _ _ hhere ht)⟩
      | succ j =>
        refine Or.inr ⟨henter, Or.inr ⟨here, hhere, ih _ hthere ⟨j, l, ls, ?_, ht⟩⟩⟩
        rw [List.drop_drop, Nat.add_comm, ← Nat.succ_mul]
        exact hj

/-! ## Runs whose turns do not fail -/

/-- The turn does not fail. -/
def Succeeds (R : Rules κ ε) : Turn κ → Prop
  | .start k => R.enter [k] = .ok ()
  | .next ws k => ∃ r, R.verdict ws k = .ok r ∧ (r < 0 → R.enter (ws ++ [k]) = .ok ())

section
variable {R : Rules κ ε} {spent : ε} {rank : List κ → Nat}
  (hrank : ∀ ws k, R.enter (ws ++ [k]) = .ok () → rank (ws ++ [k]) < rank ws)

include hrank

/-- A search ends when none of its turns fails and each step down makes a rank smaller. -/
theorem search_ok_of_turns (fuel : Nat) (ws ks : List κ) (hf : rank ws < fuel)
    (h : ∀ t ∈ (searchInTurns R spent fuel ws ks).steps, Succeeds R t) :
    ∃ L, search R spent fuel ws ks = .ok L := by
  induction fuel generalizing ws ks with
  | zero => omega
  | succ fuel ih =>
    unfold searchInTurns at h
    unfold search
    induction ks with
    | nil => exact ⟨[], rfl⟩
    | cons k rest ihks =>
      cases hskip : R.skip ws k with
      | true =>
        rw [searchLoopInTurns_skip hskip] at h
        rw [searchLoop_skip hskip]
        exact ihks h
      | false =>
        simp only [mem_searchLoopInTurns (result_searchInTurns R spent fuel) hskip] at h
        obtain ⟨r, hr, hdown⟩ := h _ (Or.inl rfl)
        have hbelow : r < 0 → R.enter (ws ++ [k]) = .ok () ∧
            ∃ here, search R spent fuel (ws ++ [k]) (k :: rest) = .ok here := by
          intro hneg
          have henter := hdown hneg
          have hlt := hrank ws k henter
          exact ⟨henter, ih _ _ (by omega) fun t ht =>
            h t (Or.inr ⟨r, hr, Or.inl ⟨hneg, henter, ht⟩⟩)⟩
        obtain ⟨here, hhere⟩ := branch_ok hbelow
        obtain ⟨there, hthere⟩ := ihks fun t ht =>
          h t (Or.inr ⟨r, hr, Or.inr ⟨here, hhere, ht⟩⟩)
        exact ⟨_, (searchLoop_eq_ok hskip).mpr ⟨r, here, there, hr, hhere, hthere, rfl⟩⟩

theorem sweep_ok_of_turns {stuck : κ → Bool} {fuel stride : Nat} (hstride : 0 < stride)
    (n : Nat) (ks : List κ) (hn : ks.length < n) (hstuck : ∀ k ∈ ks, stuck k = false)
    (hf : ∀ k, rank [k] < fuel)
    (h : ∀ t ∈ (sweepInTurns R spent stuck fuel stride n ks).steps, Succeeds R t) :
    ∃ L, sweep R spent stuck fuel stride n ks = .ok L := by
  induction n generalizing ks with
  | zero => omega
  | succ n ih =>
    cases ks with
    | nil => exact ⟨[], rfl⟩
    | cons k rest =>
      have hk := hstuck k List.mem_cons_self
      simp only [mem_sweepInTurns hk] at h
      have henter : R.enter [k] = .ok () := h _ (Or.inl rfl)
      obtain ⟨here, hhere⟩ := search_ok_of_turns hrank fuel [k] (k :: rest) (hf k) fun t ht =>
        h t (Or.inr ⟨henter, Or.inl ht⟩)
      obtain ⟨there, hthere⟩ := ih ((k :: rest).drop stride)
        (by rw [List.length_drop, List.length_cons] at *; omega)
        (fun l hl => hstuck l (List.mem_of_mem_drop hl))
        (fun t ht => h t (Or.inr ⟨henter, Or.inr ⟨here, hhere, ht⟩⟩))
      exact ⟨_, (sweep_eq_ok hk).mpr ⟨here, there, henter, hhere, hthere, rfl⟩⟩

/-- A property that keeps turns from failing holds of the turns of a sweep exactly when it holds
of all turns that the sweep gets to: a first turn without it is one that the sweep takes. -/
theorem sweep_turns_iff {Good : Turn κ → Prop} {stuck : κ → Bool} {fuel stride : Nat}
    (hstride : 0 < stride) (n : Nat) (ks : List κ)
    (hgood : ∀ t, SweepGets R stride ks t → Entered R t → Good t → Succeeds R t)
    (hn : ks.length < n) (hstuck : ∀ k ∈ ks, stuck k = false) (hf : ∀ k, rank [k] < fuel) :
    (∀ t ∈ (sweepInTurns R spent stuck fuel stride n ks).steps, Good t) ↔
      ∀ t, SweepGets R stride ks t → Entered R t ∧ Good t := by
  constructor
  · intro h t ht
    obtain ⟨L, hL⟩ := sweep_ok_of_turns hrank hstride n ks hn hstuck hf fun t ht =>
      hgood t (gets_of_mem_sweep n ks ht) (entered_of_mem_sweep n ks ht) (h t ht)
    have htaken := mem_sweep_of_gets n ks hL ht
    exact ⟨entered_of_mem_sweep n ks htaken, h t htaken⟩
  · exact fun h t ht => (h t (gets_of_mem_sweep n ks ht)).2

end

/-! ## Turns and weights -/

section
variable {W : Type} [AddCommMonoid W] [PartialOrder W] [IsOrderedCancelAddMonoid W]

/-- With weights that are not negative and verdicts that compare with the target on the way, the
rules go on exactly below the target. -/
theorem descends_iff_total {R : Rules κ ε} {weight : κ → W} {target : W} (ws ys : List κ)
    (hlt : total weight ws < target) (hweight : ∀ y ∈ ys, 0 ≤ weight y)
    (hw : ∀ pre k post, ys = pre ++ k :: post → Descends R ws pre →
      total weight (ws ++ pre) < target → R.skip (ws ++ pre) k = false →
      ∃ r, R.verdict (ws ++ pre) k = .ok r ∧ (r < 0 ↔ total weight (ws ++ pre ++ [k]) < target)) :
    Descends R ws ys ↔ Unskipped R ws ys ∧ total weight (ws ++ ys) < target := by
  induction ys using List.reverseRecOn with
  | nil => simpa [Descends, Unskipped] using hlt
  | append_singleton ys k ih =>
    have hys := ih (fun y hy => hweight y (by simp [hy])) fun pre l post heq =>
      hw pre l (post ++ [k]) (by simp [heq])
    have hlast := hw ys k [] rfl
    simp only [descends_append, unskipped_append, Descends, Unskipped, and_true]
    rw [← List.append_assoc]
    constructor
    · rintro ⟨hdesc, hskip, r, hr0, hr⟩
      obtain ⟨hun, htotal⟩ := hys.mp hdesc
      obtain ⟨r', hr', hneg⟩ := hlast hdesc htotal hskip
      obtain rfl := Except.ok.inj (hr.symm.trans hr')
      exact ⟨⟨hun, hskip⟩, hneg.mp hr0⟩
    · rintro ⟨⟨hun, hskip⟩, htotal⟩
      have hbelow : total weight (ws ++ ys) < target := by
        refine lt_of_le_of_lt ?_ htotal
        rw [total_append weight (ws ++ ys), total_cons, total_nil, add_zero]
        exact le_add_of_nonneg_right (hweight k (by simp))
      have hdesc := hys.mpr ⟨hun, hbelow⟩
      obtain ⟨r, hr, hneg⟩ := hlast hdesc hbelow hskip
      exact ⟨hdesc, hskip, r, hneg.mpr htotal, hr⟩

end

end pruned_search
