-- The combination search is a pruned search. All levels of the recursion
-- write one set of hashes, and none of them disturbs what a level above
-- still reads, so the code finds what the search over the words alone finds.
-- This holds for every input: where the code runs into undefined behaviour,
-- so does the search.
import Anagram.Combine
import Anagram.HashLaws
import Anagram.General.PrunedSearch

open outcome pruned_search

namespace anagram

/-! ## The search over the words -/

/-- The words of a phrase, with one space between two of them. -/
def phrase (ws : List Text) : Text := [0x20].intercalate ws

theorem phrase_singleton (w : Text) : phrase [w] = w := by
  simp [phrase, List.intercalate]

theorem bytes_space : bytes " " = [0x20] := by decide

theorem phrase_snoc {ws : List Text} (hws : ws ≠ []) (k : Text) :
    phrase (ws ++ [k]) = phrase ws ++ bytes " " ++ k := by
  rw [bytes_space]
  induction ws with
  | nil => exact absurd rfl hws
  | cons w ws ih =>
    cases ws with
    | nil => simp [phrase, List.intercalate]
    | cons v vs =>
      have h := ih (by simp)
      simp only [phrase, List.intercalate, List.cons_append, List.intersperse_cons_cons,
        List.flatten_cons] at h ⊢
      rw [h]
      simp

/-- The hash of a fresh count. -/
def countOf (w : Text) : Run OccupancyHash := OccupancyHash.new.getCharCountMap w

/-- The rules of the search: a word is passed over, compared and entered as the code does it,
but each time with hashes of its own. -/
def combineRules (slots : Nat) (flags : AnagramFlags) (master_count : OccupancyHash) :
    Rules Text Fault where
  skip ws k := !flags.allow_dupes && k == phrase ws
  verdict ws k := do
    let a ← countOf (phrase ws)
    let b ← countOf k
    let b ← b.addAssign a
    b.compare master_count
  enter ws :=
    if ws.length ≤ slots + 1 then do
      let _ ← countOf (phrase ws)
      .ok ()
    else .error .undefined

/-- The world after the search has emitted its finds, in their order. -/
def emitAll (flags : AnagramFlags) (found : List (List Text)) (w : World) : World :=
  found.foldl (fun w ws => emit flags (phrase ws) w) w

@[simp] theorem emitAll_nil (flags : AnagramFlags) (w : World) : emitAll flags [] w = w := rfl

theorem emitAll_append (flags : AnagramFlags) (L M : List (List Text)) (w : World) :
    emitAll flags (L ++ M) w = emitAll flags M (emitAll flags L w) := List.foldl_append

/-! ## The shared hashes -/

/-- Every hash can be cleared, and the array keeps its length. -/
structure Kept (slots : Nat) (s : Hashes) : Prop where
  a_tidy : s.candidate_count_a.Tidy
  b_tidy : s.candidate_count_b.Tidy
  arr_tidy : ∀ h ∈ s.candidate_count_arr, h.Tidy
  arr_length : s.candidate_count_arr.length = slots

/-- A level at `depth` leaves the hash of the first word and the entries of the levels above as
they were. -/
structure Frame (depth : Nat) (s s' : Hashes) : Prop where
  first_eq : s'.candidate_count_a = s.candidate_count_a
  above_eq : ∀ d < depth, s'.candidate_count_arr[d]? = s.candidate_count_arr[d]?

/-- The level at `depth` with the words `ws`: its reference is bound to a hash that it does not
write, and this hash is the count of the words. -/
structure Ready (slots : Nat) (ws : List Text) (a : HashRef) (depth : Nat) (s : Hashes) :
    Prop where
  kept : Kept slots s
  words : ws.length = depth + 1
  above : ∀ d, a = .arr d → d < depth
  counted : ∃ h, s.deref a = .ok h ∧ countOf (phrase ws) = .ok h

theorem Frame.refl (depth : Nat) (s : Hashes) : Frame depth s s := ⟨rfl, fun _ _ => rfl⟩

theorem Frame.trans {depth : Nat} {s t u : Hashes} (h1 : Frame depth s t)
    (h2 : Frame depth t u) : Frame depth s u where
  first_eq := h2.first_eq.trans h1.first_eq
  above_eq d hd := (h2.above_eq d hd).trans (h1.above_eq d hd)

theorem Frame.mono {depth depth' : Nat} {s t : Hashes} (h : Frame depth s t)
    (hle : depth' ≤ depth) : Frame depth' s t where
  first_eq := h.first_eq
  above_eq d hd := h.above_eq d (by omega)

/-- A level reads the same count through its reference after the levels below have run. -/
theorem Frame.deref {depth : Nat} {s s' : Hashes} (h : Frame depth s s') {a : HashRef}
    (ha : ∀ d, a = .arr d → d < depth) : s'.deref a = s.deref a := by
  cases a with
  | first => simp [Hashes.deref, h.first_eq]
  | arr d => simp [Hashes.deref, h.above_eq d (ha d rfl)]

theorem Ready.frame {slots : Nat} {ws : List Text} {a : HashRef} {depth : Nat} {s s' : Hashes}
    (h : Ready slots ws a depth s) (hf : Frame depth s s') (hk : Kept slots s') :
    Ready slots ws a depth s' where
  kept := hk
  words := h.words
  above := h.above
  counted := by
    obtain ⟨c, hc, hp⟩ := h.counted
    exact ⟨c, (hf.deref h.above).trans hc, hp⟩

theorem frame_set_b (depth : Nat) (s : Hashes) (b : OccupancyHash) :
    Frame depth s { s with candidate_count_b := b } := ⟨rfl, fun _ _ => rfl⟩

theorem kept_set_b {slots : Nat} {s : Hashes} (h : Kept slots s) {b : OccupancyHash}
    (hb : b.Tidy) : Kept slots { s with candidate_count_b := b } :=
  ⟨h.a_tidy, hb, h.arr_tidy, h.arr_length⟩

/-- The hash for the next candidate is free to change. -/
theorem Ready.set_b {slots : Nat} {ws : List Text} {a : HashRef} {depth : Nat} {s : Hashes}
    (h : Ready slots ws a depth s) {b : OccupancyHash} (hb : b.Tidy) :
    Ready slots ws a depth { s with candidate_count_b := b } :=
  h.frame (frame_set_b depth s b) (kept_set_b h.kept hb)

theorem Ready.ne_nil {slots : Nat} {ws : List Text} {a : HashRef} {depth : Nat} {s : Hashes}
    (h : Ready slots ws a depth s) : ws ≠ [] := by
  apply List.ne_nil_of_length_pos
  rw [h.words]
  exact Nat.succ_pos depth

/-- The verdict, with the count of the words so far at hand. -/
theorem verdict_of_counted (slots : Nat) (flags : AnagramFlags) (master_count : OccupancyHash)
    {ws : List Text} {ha : OccupancyHash} (hcount : countOf (phrase ws) = .ok ha) (k : Text) :
    (combineRules slots flags master_count).verdict ws k =
      (do let b ← countOf k; let b ← b.addAssign ha; b.compare master_count) := by
  simp only [combineRules, hcount, bind_ok]

theorem tidy_countOf {w : Text} {h : OccupancyHash} (hw : countOf w = .ok h) : h.Tidy :=
  OccupancyHash.tidy_getCharCountMap w OccupancyHash.tidy_new hw

/-- The hash of the level below is counted into the entry of this depth. -/
theorem ready_below {slots : Nat} {ws : List Text} {a : HashRef} {depth : Nat} {s : Hashes}
    (h : Ready slots ws a depth s) (k : Text) {c : OccupancyHash}
    (hc : countOf (phrase (ws ++ [k])) = .ok c) (hd : depth < slots) :
    Ready slots (ws ++ [k]) (.arr depth) (depth + 1)
      { s with candidate_count_arr := s.candidate_count_arr.set depth c } where
  kept := by
    refine ⟨h.kept.a_tidy, h.kept.b_tidy, fun x hx => ?_, by simp [h.kept.arr_length]⟩
    rcases List.mem_or_eq_of_mem_set hx with hx | rfl
    · exact h.kept.arr_tidy x hx
    · exact tidy_countOf hc
  words := by simp [h.words]
  above d hd := by
    cases hd
    exact Nat.lt_succ_self _
  counted := by
    refine ⟨c, ?_, hc⟩
    simp [Hashes.deref, h.kept.arr_length, hd]

theorem frame_set_arr (depth : Nat) (s : Hashes) (c : OccupancyHash) :
    Frame depth s { s with candidate_count_arr := s.candidate_count_arr.set depth c } where
  first_eq := rfl
  above_eq d hd := List.getElem?_set_ne (by omega)

/-! ## The code does what the search does -/

/-- The run `r` does what the search `found` does: it fails as the search fails, or emits what
the search finds and ends with hashes for which `Q` holds. -/
def Emits (flags : AnagramFlags) (Q : Hashes → Prop) (w : World) (found : Run (List (List Text)))
    (r : Run (Hashes × World)) : Prop :=
  match found with
  | .error e => r = .error e
  | .ok L => ∃ s', r = .ok (s', emitAll flags L w) ∧ Q s'

theorem Emits.mono {flags : AnagramFlags} {Q Q' : Hashes → Prop} {w : World}
    {found : Run (List (List Text))} {r : Run (Hashes × World)} (h : Emits flags Q w found r)
    (hQ : ∀ s, Q s → Q' s) : Emits flags Q' w found r := by
  cases found with
  | error e => exact h
  | ok L =>
    obtain ⟨s', hs', hq⟩ := h
    exact ⟨s', hs', hQ s' hq⟩

/-- Two parts that each do what a search does, one after the other. -/
theorem Emits.seq {flags : AnagramFlags} {Q Q' : Hashes → Prop} {w : World}
    {here there : Run (List (List Text))} {r : Run (Hashes × World)}
    {g : Hashes × World → Run (Hashes × World)} (h1 : Emits flags Q w here r)
    (h2 : ∀ s' w', Q s' → Emits flags Q' w' there (g (s', w'))) :
    Emits flags Q' w (do let L ← here; let M ← there; .ok (L ++ M)) (r >>= g) := by
  cases here with
  | error e =>
    rw [show r = .error e from h1]
    rfl
  | ok L =>
    obtain ⟨s', rfl, hq⟩ := h1
    have h3 := h2 s' (emitAll flags L w) hq
    rw [bind_ok, bind_ok]
    cases there with
    | error e => exact h3
    | ok M =>
      obtain ⟨s'', hs'', hq'⟩ := h3
      exact ⟨s'', by rw [hs'', emitAll_append], hq'⟩

/-- What a level at `depth` leaves behind. -/
def LeftBy (slots depth : Nat) (s s' : Hashes) : Prop := Kept slots s' ∧ Frame depth s s'

/-- The recursive call does what the search from a grown sequence does. -/
def RecursionEmits (slots : Nat) (flags : AnagramFlags)
    (deeper : List Text → List Text → Run (List (List Text)))
    (recurse : Text → HashRef → List Text → Nat → Hashes × World → Run (Hashes × World)) :
    Prop :=
  ∀ ws ks a depth s w, Ready slots ws a depth s →
    Emits flags (LeftBy slots depth s) w (deeper ws ks) (recurse (phrase ws) a ks depth (s, w))

variable {slots : Nat} {flags : AnagramFlags} {master_count : OccupancyHash}
  {deeper : List Text → List Text → Run (List (List Text))}
  {recurse : Text → HashRef → List Text → Nat → Hashes × World → Run (Hashes × World)}

theorem descend_emits (hrec : RecursionEmits slots flags deeper recurse) {ws rest : List Text}
    {a : HashRef} {depth : Nat} (k : Text) {s : Hashes} (w : World)
    (h : Ready slots ws a depth s) :
    Emits flags (LeftBy slots depth s) w
      (do (combineRules slots flags master_count).enter (ws ++ [k]); deeper (ws ++ [k]) (k :: rest))
      (descend recurse (phrase (ws ++ [k])) (k :: rest) depth (s, w)) := by
  have hlen : (ws ++ [k]).length ≤ slots + 1 ↔ depth < slots := by
    simp [h.words]
  simp only [combineRules, descend]
  by_cases hd : depth < slots
  · rw [if_pos (hlen.mpr hd), List.getElem?_eq_getElem (by rw [h.kept.arr_length]; exact hd)]
    simp only
    rw [OccupancyHash.clear_tidy (h.kept.arr_tidy _ (List.getElem_mem _)), bind_ok]
    change Emits flags _ w _ (do let h ← countOf (phrase (ws ++ [k])); _)
    cases hc : countOf (phrase (ws ++ [k])) with
    | error e => rfl
    | ok c =>
      simp only [bind_ok]
      refine (hrec _ (k :: rest) _ _ _ w (ready_below h k hc hd)).mono fun s' hs' => ?_
      exact ⟨hs'.1, (frame_set_arr depth s c).trans (hs'.2.mono (by omega))⟩
  · rw [if_neg (fun hle => hd (hlen.mp hle)),
      List.getElem?_eq_none (by rw [h.kept.arr_length]; omega)]
    rfl

theorem classify_emits (hrec : RecursionEmits slots flags deeper recurse) {ws rest : List Text}
    {a : HashRef} {depth : Nat} (k : Text) (r : Int) {s : Hashes} (w : World)
    (h : Ready slots ws a depth s) :
    Emits flags (LeftBy slots depth s) w
      (branch (combineRules slots flags master_count) deeper ws k rest r)
      (classify flags recurse (phrase ws) k rest depth r (s, w)) := by
  have hstay : LeftBy slots depth s s := ⟨h.kept, Frame.refl _ _⟩
  unfold classify branch
  rw [← phrase_snoc h.ne_nil]
  dsimp only
  split_ifs with h0 hneg
  · exact ⟨s, rfl, hstay⟩
  · exact descend_emits hrec k w h
  · exact ⟨s, rfl, hstay⟩

theorem combineLoop_emits (hrec : RecursionEmits slots flags deeper recurse) {ws : List Text}
    (ks : List Text) {a : HashRef} {depth : Nat} {s : Hashes} (w : World)
    (h : Ready slots ws a depth s) :
    Emits flags (LeftBy slots depth s) w
      (searchLoop (combineRules slots flags master_count) deeper ws ks)
      (combineLoop flags master_count recurse (phrase ws) a depth ks (s, w)) := by
  induction ks generalizing s w with
  | nil => exact ⟨s, rfl, h.kept, Frame.refl _ _⟩
  | cons k rest ih =>
    rw [searchLoop, combineLoop]
    by_cases hskip : (!flags.allow_dupes && k == phrase ws) = true
    · rw [if_pos hskip, if_pos (by exact hskip)]
      exact ih w h
    rw [if_neg hskip, if_neg (by exact hskip), OccupancyHash.clear_tidy h.kept.b_tidy, bind_ok]
    obtain ⟨ha, hderef, hcount⟩ := h.counted
    -- the counts of the code are those of the rules, so both fail together
    change Emits flags _ w _ (do let b ← countOf k; _)
    rw [verdict_of_counted slots flags master_count hcount]
    cases hk : countOf k with
    | error e => rfl
    | ok b =>
      simp only [bind_ok, hderef]
      cases hsum : b.addAssign ha with
      | error e => rfl
      | ok sum =>
        simp only [bind_ok]
        cases hcmp : sum.compare master_count with
        | error e => rfl
        | ok r =>
          simp only [bind_ok]
          have hs := h.set_b (OccupancyHash.tidy_addAssign (tidy_countOf hk) hsum)
          refine (classify_emits hrec k r w hs).seq fun s' w' hs' => ?_
          refine (ih w' (hs.frame hs'.2 hs'.1)).mono fun s'' hs'' => ?_
          exact ⟨hs''.1, (frame_set_b depth s sum).trans (hs'.2.trans hs''.2)⟩

/-- Every level of the recursion does what the search does from its words. -/
theorem combineSubsetsRecurseFast_emits (flags : AnagramFlags) (master_count : OccupancyHash)
    (fuel : Nat) :
    RecursionEmits slots flags
      (search (combineRules slots flags master_count) Fault.out_of_fuel fuel)
      (combineSubsetsRecurseFast flags master_count fuel) := by
  induction fuel with
  | zero => exact fun _ _ _ _ _ _ _ => rfl
  | succ fuel ih => exact fun ws ks a depth s w h => combineLoop_emits ih ks w h

/-- A start is counted by itself. -/
theorem enter_singleton (slots : Nat) (flags : AnagramFlags) (master_count : OccupancyHash)
    (k : Text) : (combineRules slots flags master_count).enter [k] =
      (do let _ ← countOf k; .ok ()) := by
  simp [combineRules, phrase_singleton]

/-- The outer loop calls the recursion with the count of the start. -/
theorem Kept.ready_first {s : Hashes} (h : Kept slots s) {k : Text} {c : OccupancyHash}
    (hc : countOf k = .ok c) : Ready slots [k] .first 0 { s with candidate_count_a := c } := by
  refine ⟨⟨tidy_countOf hc, h.b_tidy, h.arr_tidy, h.arr_length⟩, rfl, ?_, ?_⟩
  · intro d hd
    cases hd
  · exact ⟨c, rfl, by rw [phrase_singleton]; exact hc⟩

/-- The outer loop does what the sweep over the starts does. -/
theorem outerLoop_emits (flags : AnagramFlags) (master_count : OccupancyHash) (word : Text)
    (fuel cpu_tot n : Nat) (ks : List Text) {s : Hashes} (w : World) (h : Kept slots s) :
    Emits flags (Kept slots) w
      (sweep (combineRules slots flags master_count) Fault.out_of_fuel
        (fun k => !flags.allow_dupes && k == word) fuel cpu_tot n ks)
      (outerLoop flags master_count word fuel cpu_tot n ks (s, w)) := by
  induction n generalizing ks s w with
  | zero => rfl
  | succ n ih =>
    cases ks with
    | nil => exact ⟨s, rfl, h⟩
    | cons k rest =>
      rw [sweep, outerLoop]
      by_cases hstuck : (!flags.allow_dupes && k == word) = true
      · rw [if_pos hstuck, if_pos hstuck]
        exact ih _ w h
      rw [if_neg hstuck, if_neg hstuck, OccupancyHash.clear_tidy h.a_tidy, bind_ok]
      rw [enter_singleton]
      change Emits flags _ w _ (do let a ← countOf k; _)
      cases hc : countOf k with
      | error e => rfl
      | ok c =>
        simp only [bind_ok]
        have hhere := combineSubsetsRecurseFast_emits flags master_count fuel [k] (k :: rest)
          .first 0 _ w (h.ready_first hc)
        rw [phrase_singleton] at hhere
        exact hhere.seq fun s' w' hs' => ih _ w' hs'.1

/-- The search of one thread over the words of the subset. -/
def threadSearch (slots fuel cpu_tot : Nat) (flags : AnagramFlags) (word : Text)
    (subset : List Text) (thread_index : Int) : Run (List (List Text)) := do
  let master_count ← countOf word
  sweep (combineRules slots flags master_count) Fault.out_of_fuel
    (fun k => !flags.allow_dupes && k == word) fuel cpu_tot fuel
    (subset.drop thread_index.toNat)

theorem kept_start (slots : Nat) :
    Kept slots ⟨OccupancyHash.new, OccupancyHash.new, List.replicate slots OccupancyHash.new⟩ where
  a_tidy := OccupancyHash.tidy_new
  b_tidy := OccupancyHash.tidy_new
  arr_tidy _ hh := List.eq_of_mem_replicate hh ▸ OccupancyHash.tidy_new
  arr_length := List.length_replicate

/-- `CombineSubsetsFast` emits what its search finds, in that order, and fails as it fails. -/
theorem combineWith_eq (slots fuel cpu_tot : Nat) (flags : AnagramFlags) (word : Text)
    (subset : List Text) (thread_index : Int) (w : World) :
    combineWith slots fuel cpu_tot flags word subset thread_index w =
      (threadSearch slots fuel cpu_tot flags word subset thread_index).map
        (fun L => emitAll flags L w) := by
  unfold combineWith threadSearch
  change (do let master_count ← countOf word; _) = _
  cases hm : countOf word with
  | error e => rfl
  | ok master_count =>
    simp only [bind_ok]
    have h := outerLoop_emits flags master_count word fuel cpu_tot fuel
      (subset.drop thread_index.toNat) w (kept_start slots)
    cases hL : sweep (combineRules slots flags master_count) Fault.out_of_fuel
        (fun k => !flags.allow_dupes && k == word) fuel cpu_tot fuel
        (subset.drop thread_index.toNat) with
    | error e =>
      rw [hL] at h
      rw [show outerLoop _ _ _ _ _ _ _ _ = Except.error e from h]
      rfl
    | ok L =>
      rw [hL] at h
      obtain ⟨s', hs', _⟩ := h
      rw [hs']
      rfl

end anagram
