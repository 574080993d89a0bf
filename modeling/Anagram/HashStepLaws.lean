-- What holds of the steps of a thread. A property of steps that keeps the turns
-- from failing holds of all steps of a run exactly when it holds of the steps
-- of every turn that the search could get to.
import Anagram.CombineSteps
import Anagram.CombineLaws

open outcome traced pruned_search

namespace anagram

namespace OccupancyHash

/-! ## Comparisons do not fail -/

theorem Tidy.occupied {h : OccupancyHash} (t : Tidy h) {i : Nat} (hi : i < h.index_ptr) :
    h.occupied i = .ok (h.occupancy_index i) := occupied_of hi t.ptr_le (t.listed_lt i hi)

theorem compareLoop_tidy {a : OccupancyHash} (ta : Tidy a) (b : OccupancyHash) (k : Nat)
    (hk : k ≤ a.index_ptr) (r : Int) : ∃ s, compareLoop a b k r = .ok s := by
  induction k generalizing r with
  | zero => exact ⟨r, rfl⟩
  | succ k ih =>
    unfold compareLoop
    rw [ta.occupied (by omega), bind_ok]
    split_ifs
    · exact ⟨1, rfl⟩
    · exact ih (by omega) (-1)
    · exact ih (by omega) r

theorem compareRest_tidy (a : OccupancyHash) {b : OccupancyHash} (tb : Tidy b) (k : Nat)
    (hk : k ≤ b.index_ptr) : ∃ s, compareRest a b k = .ok s := by
  induction k with
  | zero => exact ⟨0, rfl⟩
  | succ k ih =>
    unfold compareRest
    rw [tb.occupied (by omega), bind_ok]
    split_ifs
    · exact ⟨-1, rfl⟩
    · exact ih (by omega)

theorem compare_tidy {a b : OccupancyHash} (ta : Tidy a) (tb : Tidy b) :
    ∃ r, a.compare b = .ok r := by
  unfold compare
  by_cases hptr : b.index_ptr < a.index_ptr
  · exact ⟨1, if_pos hptr⟩
  · obtain ⟨s, hs⟩ := compareLoop_tidy ta b a.index_ptr le_rfl
      (if a.index_ptr < b.index_ptr then -1 else 0)
    rw [if_neg hptr, hs, bind_ok]
    split_ifs
    · exact compareRest_tidy a tb b.index_ptr le_rfl
    · exact ⟨s, rfl⟩

/-- A tidy hash compares as equal with itself. -/
theorem compare_self {a : OccupancyHash} (ta : Tidy a) : a.compare a = .ok 0 := by
  have hfirst : ∀ k ≤ a.index_ptr, compareLoop a a k 0 = .ok 0 := by
    intro k hk
    induction k with
    | zero => rfl
    | succ k ih =>
      unfold compareLoop
      rw [ta.occupied hk, bind_ok, if_neg (Int8.lt_irrefl), if_neg (Int8.lt_irrefl)]
      exact ih (by omega)
  have hrest : ∀ k ≤ a.index_ptr, compareRest a a k = .ok 0 := by
    intro k hk
    induction k with
    | zero => rfl
    | succ k ih =>
      unfold compareRest
      rw [ta.occupied hk, bind_ok, if_neg (Int8.lt_irrefl)]
      exact ih (by omega)
  unfold compare
  rw [if_neg (Nat.lt_irrefl _), if_neg (Nat.lt_irrefl _), hfirst _ le_rfl, bind_ok, if_pos rfl]
  exact hrest _ le_rfl

end OccupancyHash

/-! ## The steps of one turn -/

/-- A count or a sum does not fail. -/
def HashStep.Succeeds : HashStep → Prop
  | .count h text => ∃ h', h.getCharCountMap text = .ok h'
  | .add h b _ _ => ∃ h', h.addAssign b = .ok h'
  | _ => True

/-- An access to the array of `slots` hashes is inside it. -/
def HashStep.Within (slots : Nat) : HashStep → Prop
  | .slot depth => depth < slots
  | _ => True

instance (slots : Nat) (e : HashStep) : Decidable (e.Within slots) := by
  cases e <;> (unfold HashStep.Within; infer_instance)

theorem HashStep.within_iff {slots : Nat} {e : HashStep} :
    e.Within slots ↔ ∀ depth, e = .slot depth → depth < slots := by
  cases e <;> simp [HashStep.Within]

variable {slots : Nat} {flags : AnagramFlags} {master_count : OccupancyHash} {master : Text}

theorem enter_eq (ws : List Text) : (combineRules slots flags master_count).enter ws =
    if ws.length ≤ slots + 1 then do
      let _ ← countOf (phrase ws)
      .ok ()
    else .error .undefined := rfl

theorem enter_eq_ok {ws : List Text} :
    (combineRules slots flags master_count).enter ws = .ok () ↔
      ws.length ≤ slots + 1 ∧ ∃ h, countOf (phrase ws) = .ok h := by
  rw [enter_eq]
  split_ifs with hlen
  · rw [bind_eq_ok]
    simp [hlen]
  · simp [hlen]

/-- The verdict is the comparison of the sum of the two counts. -/
theorem verdict_eq_ok {ws : List Text} {k : Text} {a : OccupancyHash}
    (ha : countOf (phrase ws) = .ok a) {r : Int} :
    (combineRules slots flags master_count).verdict ws k = .ok r ↔
      ∃ b sum, countOf k = .ok b ∧ b.addAssign a = .ok sum ∧ sum.compare master_count = .ok r := by
  simp only [combineRules, ha, bind_ok, bind_eq_ok]
  constructor
  · rintro ⟨b, hb, sum, hsum, hr⟩
    exact ⟨b, sum, hb, hsum, hr⟩
  · rintro ⟨b, sum, hb, hsum, hr⟩
    exact ⟨b, hb, sum, hsum, hr⟩

/-- What a property of the steps of a turn says, step by step. -/
theorem all_nextSteps_iff {Fine : HashStep → Prop} {ws : List Text} {k : Text}
    {a : OccupancyHash} (ha : countOf (phrase ws) = .ok a) :
    (∀ e ∈ turnSteps slots master_count master (.next ws k), Fine e) ↔
      Fine (.count .new k) ∧ ∀ b, countOf k = .ok b → Fine (.add b a k (phrase ws)) ∧
        ∀ sum, b.addAssign a = .ok sum →
          Fine (.compare sum master_count (phrase (ws ++ [k])) master) ∧
          ∀ r < 0, sum.compare master_count = .ok r → Fine (.slot (ws.length - 1)) ∧
            (ws.length - 1 < slots → Fine (.count .new (phrase (ws ++ [k])))) := by
  have hbelow : ∀ r, (∀ e ∈ (belowInSteps slots (ws ++ [k]) r).steps, Fine e) ↔
      (r < 0 → Fine (.slot (ws.length - 1)) ∧
        (ws.length - 1 < slots → Fine (.count .new (phrase (ws ++ [k]))))) := by
    intro r
    have hlen : (ws ++ [k]).length - 2 = ws.length - 1 := by simp
    unfold belowInSteps
    rw [hlen]
    by_cases hr : r < 0
    · rw [if_pos hr, all_steps_bind, all_steps_note, steps_bind_pure, countInSteps,
        all_steps_note, result_note]
      by_cases hd : ws.length - 1 < slots
      · simp [hd, hr]
      · simp [hd, hr]
    · simp [hr]
  change (∀ e ∈ (nextInSteps slots master_count master ws k).steps, Fine e) ↔ _
  unfold nextInSteps countInSteps addInSteps compareInSteps
  rw [ha, quiet_ok_bind]
  simp only [all_steps_bind, all_steps_note, result_note, hbelow]
  refine and_congr_right fun _ => forall₂_congr fun b _ => and_congr_right fun _ =>
    forall₂_congr fun sum _ => and_congr_right fun _ => forall_congr' fun r => ?_
  exact ⟨fun h hr hcmp => h hcmp hr, fun h hcmp hr => h hr hcmp⟩

/-- A turn whose counts and sums succeed inside the array is one that does not fail. -/
theorem succeeds_of_steps {t : Turn Text} (hm : master_count.Tidy)
    (ht : Entered (combineRules slots flags master_count) t)
    (h : ∀ e ∈ turnSteps slots master_count master t, e.Succeeds ∧ e.Within slots) :
    pruned_search.Succeeds (combineRules slots flags master_count) t := by
  cases t with
  | start k =>
    have hk := (h (.count .new k) List.mem_cons_self).1
    refine enter_eq_ok.mpr ⟨by simp, ?_⟩
    rw [phrase_singleton]
    exact hk
  | next ws k =>
    obtain ⟨hlen, a, ha⟩ := enter_eq_ok.mp ht
    obtain ⟨⟨⟨b, hb⟩, -⟩, hrest⟩ := (all_nextSteps_iff ha).mp h
    obtain ⟨⟨⟨sum, hsum⟩, -⟩, hrest⟩ := hrest b hb
    obtain ⟨r, hr⟩ := OccupancyHash.compare_tidy
      (OccupancyHash.tidy_addAssign (tidy_countOf hb) hsum) hm
    refine ⟨r, (verdict_eq_ok ha).mpr ⟨b, sum, hb, hsum, hr⟩, fun hneg => ?_⟩
    obtain ⟨⟨-, hslot⟩, hcount⟩ := (hrest sum hsum).2 r hneg hr
    have hd : ws.length - 1 < slots := hslot
    refine enter_eq_ok.mpr ⟨?_, (hcount hd).1⟩
    rw [List.length_append, List.length_singleton]
    omega

/-! ## All steps of a thread -/

/-- What is drawn from a place of a thread are keys. -/
theorem mem_of_drawn {keys : List Text} {t j cpu_tot : Nat} {k : Text} {rest ys : List Text}
    (hj : (keys.drop t).drop (j * cpu_tot) = k :: rest) (hdrawn : Drawn (k :: rest) ys) :
    ∀ y ∈ k :: ys, y ∈ keys := by
  have hall : ∀ y ∈ k :: rest, y ∈ keys := fun y hy =>
    List.mem_of_mem_drop (List.mem_of_mem_drop (hj ▸ hy))
  intro y hy
  rcases List.mem_cons.mp hy with rfl | hy
  · exact hall _ List.mem_cons_self
  · exact hall y (hdrawn.mem y hy)

/-- All steps of a thread have a property when the counts of the master and of the starts and the
steps of every turn that the search gets to have it. -/
theorem all_thread_steps {Fine : HashStep → Prop} {word : Text} {keys : List Text}
    {fuel cpu_tot : Nat} {thread_index : Int} {w : World} (hword : Fine (.count .new word))
    (hstart : ∀ k ∈ keys, Fine (.count .new k))
    (hturn : ∀ master_count, countOf word = .ok master_count → ∀ j k l rest ys a,
      (keys.drop thread_index.toNat).drop (j * cpu_tot) = k :: rest →
      Drawn (k :: rest) (ys ++ [l]) → Descends (combineRules slots flags master_count) [k] ys →
      (combineRules slots flags master_count).skip (k :: ys) l = false →
      countOf (phrase (k :: ys)) = .ok a →
      ∀ e ∈ turnSteps slots master_count word (.next (k :: ys) l), Fine e) :
    ∀ e ∈ (combineInSteps slots fuel cpu_tot flags word keys thread_index w).steps, Fine e := by
  cases hm : countOf word with
  | error f =>
    rw [combineInSteps_failed _ _ _ _ _ _ _ _ hm, List.forall_mem_singleton]
    exact hword
  | ok master_count =>
    rw [combineInSteps_steps _ _ _ _ _ _ _ _ hm, List.forall_mem_cons]
    refine ⟨hword, fun e he => ?_⟩
    obtain ⟨t, ht, he⟩ := List.mem_flatMap.mp he
    have hentered := entered_of_mem_sweep _ _ ht
    obtain ⟨j, k, rest, hj, rfl | ⟨ys, l, rfl, hdrawn, hdesc, hskip⟩⟩ := gets_of_mem_sweep _ _ ht
    · rw [turnSteps, List.mem_singleton] at he
      subst he
      exact hstart k (mem_of_drawn hj (Drawn.nil _) k List.mem_cons_self)
    · obtain ⟨-, a, ha⟩ := enter_eq_ok.mp hentered
      exact hturn master_count hm j k l rest ys a hj hdrawn hdesc hskip ha e he

/-- A property of steps that keeps the turns from failing holds of the steps of a thread exactly
when it holds of the count of the master and of the steps of every turn that the search gets
to. -/
theorem thread_steps_iff {Fine : HashStep → Prop} {word : Text} {keys : List Text}
    {fuel cpu_tot : Nat} (hcpu : 1 ≤ cpu_tot) (hfuel : keys.length < fuel)
    (hslots : slots + 1 < fuel)
    (hstuck : ∀ k ∈ keys, (!flags.allow_dupes && k == word) = false) (thread_index : Int)
    (w : World)
    (hfine : ∀ master_count, countOf word = .ok master_count → ∀ t,
      SweepGets (combineRules slots flags master_count) cpu_tot (keys.drop thread_index.toNat) t →
      Entered (combineRules slots flags master_count) t →
      (∀ e ∈ turnSteps slots master_count word t, Fine e) →
      ∀ e ∈ turnSteps slots master_count word t, e.Succeeds ∧ e.Within slots) :
    (∀ e ∈ (combineInSteps slots fuel cpu_tot flags word keys thread_index w).steps, Fine e) ↔
      Fine (.count .new word) ∧ ∀ master_count, countOf word = .ok master_count → ∀ t,
        SweepGets (combineRules slots flags master_count) cpu_tot
          (keys.drop thread_index.toNat) t →
        Entered (combineRules slots flags master_count) t ∧
          ∀ e ∈ turnSteps slots master_count word t, Fine e := by
  cases hm : countOf word with
  | error e => simp [combineInSteps_failed _ _ _ _ _ _ _ _ hm]
  | ok master_count =>
    have hrank : ∀ ws k, (combineRules slots flags master_count).enter (ws ++ [k]) = .ok () →
        slots + 2 - (ws ++ [k]).length < slots + 2 - ws.length := by
      intro ws k h
      have hlen := (enter_eq_ok.mp h).1
      rw [List.length_append, List.length_singleton] at hlen ⊢
      omega
    have hturns := @sweep_turns_iff _ _ (combineRules slots flags master_count) Fault.out_of_fuel
      (fun ws => slots + 2 - ws.length) hrank
      (fun t => ∀ e ∈ turnSteps slots master_count word t, Fine e)
      (fun k => !flags.allow_dupes && k == word) fuel cpu_tot hcpu fuel
      (keys.drop thread_index.toNat)
      (fun t hgets hentered hgood =>
        succeeds_of_steps (tidy_countOf hm) hentered (hfine _ hm t hgets hentered hgood))
      (by rw [List.length_drop]; omega) (fun k hk => hstuck k (List.mem_of_mem_drop hk))
      (fun k => by rw [List.length_singleton]; omega)
    rw [combineInSteps_steps _ _ _ _ _ _ _ _ hm, List.forall_mem_cons]
    refine and_congr_right fun _ => ?_
    simp only [Except.ok.injEq, forall_eq', stepsOf, List.mem_flatMap, threadTurns]
    rw [← hturns]
    constructor
    · exact fun h t ht e he => h e ⟨t, ht, he⟩
    · rintro h e ⟨t, ht, he⟩
      exact h t ht e he

end anagram
