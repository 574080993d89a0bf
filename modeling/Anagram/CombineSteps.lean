-- The steps of the combination search are those of the turns of its search over
-- the words alone. Each turn counts, adds and compares as with hashes of its
-- own, so what a run does with the hashes can be read off the words.
import Anagram.CombineSearch
import Anagram.HashSteps
import Anagram.General.SearchTurns

open outcome traced pruned_search

namespace anagram

/-! ## The steps of a turn -/

/-- What follows the comparison: a phrase that is still a partial is counted in the entry of its
depth. -/
def belowInSteps (slots : Nat) (ws : List Text) (r : Int) : InSteps Unit :=
  if r < 0 then do
    note (.slot (ws.length - 2)) (if ws.length - 2 < slots then .ok () else .error .undefined)
    let _ ← countInSteps .new (phrase ws)
    pure ()
  else pure ()

/-- The turn for the words `ws` and the next word `k`, with hashes of its own. -/
def nextInSteps (slots : Nat) (master_count : OccupancyHash) (master : Text) (ws : List Text)
    (k : Text) : InSteps Unit := do
  let a ← quiet (countOf (phrase ws))
  let b ← countInSteps .new k
  let sum ← addInSteps b a k (phrase ws)
  let r ← compareInSteps sum master_count (phrase (ws ++ [k])) master
  belowInSteps slots (ws ++ [k]) r

/-- The steps of a turn. -/
def turnSteps (slots : Nat) (master_count : OccupancyHash) (master : Text) :
    Turn Text → List HashStep
  | .start k => [.count .new k]
  | .next ws k => (nextInSteps slots master_count master ws k).steps

/-- The steps of the turns that a search takes. -/
def stepsOf {α : Type} (slots : Nat) (master_count : OccupancyHash) (master : Text)
    (x : InTurns Text Fault α) : List HashStep :=
  x.steps.flatMap (turnSteps slots master_count master)

/-! ## The code takes these steps -/

variable {slots : Nat} {flags : AnagramFlags} {master_count : OccupancyHash} {master : Text}

/-- The recursive call takes the steps of the search from a grown sequence. -/
def RecursionSteps (slots : Nat) (flags : AnagramFlags) (master_count : OccupancyHash)
    (master : Text) (fuel : Nat) : Prop :=
  ∀ ws ks a depth s w, Ready slots ws a depth s →
    (combineSubsetsRecurseFastInSteps flags master_count master fuel (phrase ws) a ks depth
      (s, w)).steps = stepsOf slots master_count master
        (searchInTurns (combineRules slots flags master_count) Fault.out_of_fuel fuel ws ks)

theorem descend_steps {fuel : Nat} (hrec : RecursionSteps slots flags master_count master fuel)
    {ws rest : List Text} {a : HashRef} {depth : Nat} (k : Text) {s : Hashes} (w : World)
    (h : Ready slots ws a depth s) :
    (descendInSteps (combineSubsetsRecurseFastInSteps flags master_count master fuel)
      (phrase (ws ++ [k])) (k :: rest) depth (s, w)).steps =
      (belowInSteps slots (ws ++ [k]) (-1)).steps ++ stepsOf slots master_count master (do
        quiet ((combineRules slots flags master_count).enter (ws ++ [k]))
        searchInTurns (combineRules slots flags master_count) Fault.out_of_fuel fuel (ws ++ [k])
          (k :: rest)) := by
  have hlen : (ws ++ [k]).length ≤ slots + 1 ↔ depth < slots := by simp [h.words]
  have hdepth : (ws ++ [k]).length - 2 = depth := by simp [h.words]
  have henter : (combineRules slots flags master_count).enter (ws ++ [k]) =
      if (ws ++ [k]).length ≤ slots + 1 then do
        let _ ← countOf (phrase (ws ++ [k]))
        .ok ()
      else .error .undefined := rfl
  unfold descendInSteps belowInSteps slotInSteps
  rw [if_pos (by decide), hdepth, henter]
  by_cases hd : depth < slots
  · rw [if_pos hd, if_pos (hlen.mpr hd),
      List.getElem?_eq_getElem (by rw [h.kept.arr_length]; exact hd)]
    simp only [note_ok_bind]
    rw [OccupancyHash.clear_tidy (h.kept.arr_tidy _ (List.getElem_mem _)), quiet_ok_bind]
    unfold countInSteps
    change HashStep.slot depth :: (note _ (countOf (phrase (ws ++ [k]))) >>= _).steps =
      (HashStep.slot depth :: (note _ (countOf (phrase (ws ++ [k]))) >>= _).steps) ++ _
    cases hc : countOf (phrase (ws ++ [k])) with
    | error e => simp [stepsOf]
    | ok c =>
      have hdeep := hrec _ (k :: rest) _ _ _ w (ready_below h k hc hd)
      simp [hdeep, stepsOf]
  · rw [if_neg hd, if_neg (fun hle => hd (hlen.mp hle)),
      List.getElem?_eq_none (by rw [h.kept.arr_length]; omega)]
    simp [stepsOf]

theorem classify_steps {fuel : Nat} (hrec : RecursionSteps slots flags master_count master fuel)
    {ws rest : List Text} {a : HashRef} {depth : Nat} (k : Text) (r : Int) {s : Hashes} (w : World)
    (h : Ready slots ws a depth s) :
    (classifyInSteps flags (combineSubsetsRecurseFastInSteps flags master_count master fuel)
      (phrase ws) k rest depth r (s, w)).steps =
      (belowInSteps slots (ws ++ [k]) r).steps ++ stepsOf slots master_count master
        (branchInTurns (combineRules slots flags master_count)
          (searchInTurns (combineRules slots flags master_count) Fault.out_of_fuel fuel) ws k rest
          r) := by
  unfold classifyInSteps branchInTurns
  rw [← phrase_snoc h.ne_nil]
  dsimp only
  split_ifs with h0 hneg
  · simp [belowInSteps, h0, stepsOf]
  · rw [descend_steps hrec k w h]
    simp [belowInSteps, hneg]
  · simp [belowInSteps, hneg, stepsOf]

/-- A part that takes the steps of a search, and then the rest: what comes after a part that has
not failed takes the steps of the search for the rest. -/
theorem seq_steps {Q : Hashes → Prop} {w : World} {x : InSteps (Hashes × World)}
    {g : Hashes × World → InSteps (Hashes × World)}
    {found more : InTurns Text Fault (List (List Text))} {first : List HashStep}
    (hsteps : x.steps = first ++ stepsOf slots master_count master found)
    (hemits : Emits flags Q w found.result x.result)
    (hg : ∀ s' w', Q s' → (g (s', w')).steps = stepsOf slots master_count master more) :
    (x >>= g).steps = first ++ stepsOf slots master_count master (do
      let here ← found
      let there ← more
      pure (here ++ there)) := by
  cases hfound : found.result with
  | error e =>
    rw [hfound] at hemits
    rw [bind_of_error hemits, bind_of_error hfound]
    exact hsteps
  | ok L =>
    rw [hfound] at hemits
    obtain ⟨s', hs', hq⟩ := hemits
    rw [bind_of_ok hs', bind_of_ok hfound, steps_bind_pure]
    simp only [stepsOf, List.flatMap_append, ← List.append_assoc] at hsteps hg ⊢
    rw [hsteps, hg s' _ hq]

theorem combineLoop_steps {fuel : Nat}
    (hrec : RecursionSteps slots flags master_count master fuel) {ws : List Text}
    (ks : List Text) {a : HashRef} {depth : Nat} {s : Hashes} (w : World)
    (h : Ready slots ws a depth s) :
    (combineLoopInSteps flags master_count master
      (combineSubsetsRecurseFastInSteps flags master_count master fuel) (phrase ws) a depth ks
      (s, w)).steps = stepsOf slots master_count master
        (searchLoopInTurns (combineRules slots flags master_count)
          (searchInTurns (combineRules slots flags master_count) Fault.out_of_fuel fuel) ws
          ks) := by
  induction ks generalizing s w with
  | nil => rfl
  | cons k rest ih =>
    unfold combineLoopInSteps searchLoopInTurns
    by_cases hskip : (!flags.allow_dupes && k == phrase ws) = true
    · rw [if_pos hskip, if_pos (by exact hskip)]
      exact ih w h
    rw [if_neg hskip, if_neg (by exact hskip)]
    dsimp only
    rw [OccupancyHash.clear_tidy h.kept.b_tidy, quiet_ok_bind, ← phrase_snoc h.ne_nil]
    obtain ⟨ha, hderef, hcount⟩ := h.counted
    -- the counts of the code are those of the turn, so both fail at the same step
    have hturn : turnSteps slots master_count master (.next ws k) =
        (do let b ← countInSteps .new k
            let sum ← addInSteps b ha k (phrase ws)
            let r ← compareInSteps sum master_count (phrase (ws ++ [k])) master
            belowInSteps slots (ws ++ [k]) r).steps := by
      simp only [turnSteps, nextInSteps, hcount, quiet_ok_bind]
    rw [verdict_of_counted slots flags master_count hcount]
    unfold countInSteps addInSteps compareInSteps at hturn ⊢
    change _ = (note _ (countOf k) >>= _).steps at hturn
    change (note _ (countOf k) >>= _).steps = _
    cases hk : countOf k with
    | error e =>
      simp only [hk, note_error_bind, bind_error] at hturn ⊢
      simp [stepsOf, hturn]
    | ok b =>
      simp only [hk, hderef, note_ok_bind, quiet_ok_bind, bind_ok] at hturn ⊢
      cases hsum : b.addAssign ha with
      | error e =>
        simp only [hsum, note_error_bind, bind_error] at hturn ⊢
        simp [stepsOf, hturn]
      | ok sum =>
        simp only [hsum, note_ok_bind, bind_ok] at hturn ⊢
        cases hcmp : sum.compare master_count with
        | error e =>
          simp only [hcmp, note_error_bind] at hturn ⊢
          simp [stepsOf, hturn]
        | ok r =>
          simp only [hcmp, note_ok_bind] at hturn ⊢
          have hs := h.set_b (OccupancyHash.tidy_addAssign (tidy_countOf hk) hsum)
          have hstep : ∀ {α : Type} (x : InTurns Text Fault α),
              stepsOf slots master_count master ⟨Turn.next ws k :: x.steps, x.result⟩ =
                .count .new k :: .add b ha k (phrase ws) ::
                  .compare sum master_count (phrase (ws ++ [k])) master ::
                  ((belowInSteps slots (ws ++ [k]) r).steps ++
                    stepsOf slots master_count master x) := by
            intro α x
            simp [stepsOf, hturn]
          rw [hstep]
          congr 3
          apply seq_steps (classify_steps hrec k r w hs) (Q := LeftBy slots depth _)
          · rw [result_classifyInSteps
                (result_combineSubsetsRecurseFastInSteps flags master_count master fuel),
              result_branchInTurns
                (result_searchInTurns (combineRules slots flags master_count) _ fuel)]
            exact classify_emits (combineSubsetsRecurseFast_emits flags master_count fuel) k r w hs
          · exact fun s' w' hs' => ih w' (hs.frame hs'.2 hs'.1)

/-- Every level of the recursion takes the steps of the search from its words. -/
theorem combineSubsetsRecurseFast_steps (flags : AnagramFlags) (master_count : OccupancyHash)
    (master : Text) (fuel : Nat) : RecursionSteps slots flags master_count master fuel := by
  induction fuel with
  | zero => exact fun _ _ _ _ _ _ _ => rfl
  | succ fuel ih => exact fun ws ks a depth s w h => combineLoop_steps ih ks w h

theorem outerLoop_steps (flags : AnagramFlags) (master_count : OccupancyHash) (word : Text)
    (fuel cpu_tot n : Nat) (ks : List Text) {s : Hashes} (w : World) (h : Kept slots s) :
    (outerLoopInSteps flags master_count word fuel cpu_tot n ks (s, w)).steps =
      stepsOf slots master_count word (sweepInTurns (combineRules slots flags master_count)
        Fault.out_of_fuel (fun k => !flags.allow_dupes && k == word) fuel cpu_tot n ks) := by
  induction n generalizing ks s w with
  | zero => rfl
  | succ n ih =>
    cases ks with
    | nil => rfl
    | cons k rest =>
      unfold outerLoopInSteps sweepInTurns
      by_cases hstuck : (!flags.allow_dupes && k == word) = true
      · rw [if_pos hstuck, if_pos hstuck]
        exact ih _ w h
      rw [if_neg hstuck, if_neg hstuck]
      dsimp only
      rw [OccupancyHash.clear_tidy h.a_tidy, quiet_ok_bind]
      rw [enter_singleton]
      unfold countInSteps
      change (note _ (countOf k) >>= _).steps = _
      cases hc : countOf k with
      | error e => simp [stepsOf, turnSteps]
      | ok c =>
        have hready := h.ready_first hc
        have hsteps := combineSubsetsRecurseFast_steps flags master_count word fuel [k] (k :: rest)
          .first 0 _ w hready
        have hemits := combineSubsetsRecurseFast_emits flags master_count fuel [k] (k :: rest)
          .first 0 _ w hready
        rw [phrase_singleton] at hsteps hemits
        simp only [note_ok_bind, bind_ok]
        have hfirst : ∀ {α : Type} (x : InTurns Text Fault α),
            stepsOf slots master_count word ⟨Turn.start k :: x.steps, x.result⟩ =
              .count .new k :: stepsOf slots master_count word x := fun x => rfl
        rw [hfirst]
        congr 1
        rw [← List.nil_append (stepsOf _ _ _ _)]
        apply seq_steps hsteps (Q := LeftBy slots 0 _)
        · rw [result_combineSubsetsRecurseFastInSteps, result_searchInTurns]
          exact hemits
        · exact fun s' w' hs' => ih _ w' hs'.1

/-- The turns of one thread. -/
def threadTurns (slots fuel cpu_tot : Nat) (flags : AnagramFlags) (master_count : OccupancyHash)
    (word : Text) (subset : List Text) (thread_index : Int) :
    InTurns Text Fault (List (List Text)) :=
  sweepInTurns (combineRules slots flags master_count) Fault.out_of_fuel
    (fun k => !flags.allow_dupes && k == word) fuel cpu_tot fuel
    (subset.drop thread_index.toNat)

/-- `CombineSubsetsFast` counts the master, and takes the steps of the turns of its search. -/
theorem combineInSteps_steps (slots fuel cpu_tot : Nat) (flags : AnagramFlags) (word : Text)
    (subset : List Text) (thread_index : Int) (w : World) {master_count : OccupancyHash}
    (hm : countOf word = .ok master_count) :
    (combineInSteps slots fuel cpu_tot flags word subset thread_index w).steps =
      .count .new word :: stepsOf slots master_count word
        (threadTurns slots fuel cpu_tot flags master_count word subset thread_index) := by
  unfold combineInSteps countInSteps
  change (note _ (countOf word) >>= _).steps = _
  rw [hm, note_ok_bind]
  dsimp only
  rw [steps_bind_pure, outerLoop_steps flags master_count word fuel cpu_tot fuel _ w
    (kept_start slots)]
  rfl

/-- When the master cannot be counted, nothing else is done. -/
theorem combineInSteps_failed (slots fuel cpu_tot : Nat) (flags : AnagramFlags) (word : Text)
    (subset : List Text) (thread_index : Int) (w : World) {e : Fault}
    (hm : countOf word = .error e) :
    (combineInSteps slots fuel cpu_tot flags word subset thread_index w).steps =
      [.count .new word] := by
  unfold combineInSteps countInSteps
  change (note _ (countOf word) >>= _).steps = _
  rw [hm, note_error_bind]

end anagram
