-- The texts that a call of GetAnagrams pushes: the anagrams and the phrases
-- with `-o`, the rows of the subset with `-s`, and otherwise the progress
-- messages, which are short. Nothing looks at the length of the others, so they
-- fit their slots exactly when the words and phrases are short enough.
import Anagram.PrintedRows
import Anagram.GatherSteps

open outcome pruned_search

namespace anagram

/-- The text leaves room for its NUL in a slot of the queue. -/
def ShortText (text : Text) : Prop := text.length < kOutputQueueItemSize

/-! ## What a part of a run pushes -/

/-- From one world to the next, the texts of `S` are pushed, and besides them only progress
messages about no more anagrams than the map has in the end. -/
structure Hands (w w' : World) (S : Text → Prop) : Prop where
  size_le : w.anagrams.size ≤ w'.anagrams.size
  pushed : ∃ more, w'.effects = w.effects ++ more ∧ (∀ text, S text → .push text ∈ more) ∧
    ∀ text, .push text ∈ more → S text ∨ ∃ size ≤ w'.anagrams.size, text = foundMessage size

theorem hands_refl (w : World) : Hands w w fun _ => False :=
  ⟨le_rfl, [], by simp, fun _ h => h.elim, fun _ h => by cases h⟩

theorem Hands.trans {w w₁ w₂ : World} {S S' : Text → Prop} (h : Hands w w₁ S)
    (h' : Hands w₁ w₂ S') : Hands w w₂ fun text => S text ∨ S' text := by
  obtain ⟨hle, more, heq, hin, hout⟩ := h
  obtain ⟨hle', more', heq', hin', hout'⟩ := h'
  refine ⟨hle.trans hle', more ++ more', by rw [heq', heq, List.append_assoc], ?_, ?_⟩
  · rintro text (hS | hS)
    · exact List.mem_append_left _ (hin text hS)
    · exact List.mem_append_right _ (hin' text hS)
  · intro text hmem
    rcases List.mem_append.mp hmem with hmem | hmem
    · rcases hout text hmem with hS | ⟨size, hsize, htext⟩
      · exact Or.inl (Or.inl hS)
      · exact Or.inr ⟨size, hsize.trans hle', htext⟩
    · exact (hout' text hmem).imp_left Or.inr

theorem Hands.congr {w w' : World} {S S' : Text → Prop} (h : Hands w w' S)
    (hsame : ∀ text, S text ↔ S' text) : Hands w w' S' := by
  have heq : S = S' := funext fun text => propext (hsame text)
  exact heq ▸ h

theorem hands_push (w : World) (text : Text) : Hands w (w.push text) fun x => x = text := by
  refine ⟨le_rfl, [.push text], rfl, ?_, ?_⟩
  · rintro x rfl
    exact List.mem_singleton_self _
  · intro x hx
    exact Or.inl (Effect.push.inj (List.mem_singleton.mp hx))

theorem hands_pushes (rows : List Text) (w : World) :
    Hands w (rows.foldl World.push w) fun x => x ∈ rows := by
  induction rows generalizing w with
  | nil => exact (hands_refl w).congr fun _ => by simp
  | cons row rows ih =>
    exact ((hands_push w row).trans (ih (w.push row))).congr fun _ => List.mem_cons.symm

theorem hands_write (w : World) (key : Text) : Hands w (w.write key) fun _ => False := by
  refine ⟨Std.TreeMap.size_le_size_insert, [.write key], rfl, fun _ h => h.elim, fun x hx => ?_⟩
  cases List.mem_singleton.mp hx

theorem hands_message {w : World} {size : Nat} (h : size ≤ w.anagrams.size) :
    Hands w (w.push (foundMessage size)) fun _ => False := by
  refine ⟨le_rfl, [.push (foundMessage size)], rfl, fun _ h => h.elim, fun x hx => ?_⟩
  exact Or.inr ⟨size, h, Effect.push.inj (List.mem_singleton.mp hx)⟩

/-- A message about a number that a `size_t` can hold is short. -/
theorem foundMessage_short {size : Nat} (h : size < 2 ^ 64) : ShortText (foundMessage size) := by
  have hdigits : (toString size).length ≤ 20 :=
    Nat.length_repr_le_iff (by decide) |>.mpr (h.trans (by decide))
  have hlen : ∀ s : String, (bytes s).length = s.length := by
    intro s
    rw [bytes, List.length_map, String.length_toList]
  unfold ShortText foundMessage kOutputQueueItemSize
  rw [List.length_append, List.length_append, hlen, hlen, hlen]
  have hfront : "\rAnagrams found: ".length = 17 := by decide
  have hback : "    ".length = 4 := by decide
  omega

/-- The pushed texts are short when those of `S` are. -/
theorem Hands.all_short {w w' : World} {S : Text → Prop} (h : Hands w w' S)
    (hsize : w'.anagrams.size < 2 ^ 64) :
    (∀ text, .push text ∈ w'.effects.drop w.effects.length → ShortText text) ↔
      ∀ text, S text → ShortText text := by
  obtain ⟨-, more, heq, hin, hout⟩ := h
  rw [heq, List.drop_left]
  constructor
  · exact fun hall text hS => hall text (hin text hS)
  · intro hall text hmem
    rcases hout text hmem with hS | ⟨size, hle, rfl⟩
    · exact hall text hS
    · exact foundMessage_short (hle.trans_lt hsize)

/-! ## The parts -/

/-- `CombineSubsetsRecurseFast` pushes a phrase with `-o`. -/
theorem emit_hands (flags : AnagramFlags) (p : Text) (w : World) :
    Hands w (emit flags p w)
      fun text => flags.output_directly = true ∧ text = p ++ bytes "\n" := by
  unfold emit
  split_ifs with hdirect
  · exact (hands_push w _).congr fun _ => by simp [hdirect]
  · have hwritten := hands_write w p
    dsimp only
    split_ifs
    · have hsent := @hands_message { w.write p with
        output_queue_throttle := kOutputQueueThrottleFrequency } _ le_rfl
      exact (hwritten.trans ⟨hsent.1, hsent.2⟩).congr fun _ => by simp [hdirect]
    · have hkept : Hands w { w.write p with
          output_queue_throttle := (w.write p).output_queue_throttle - 1 } fun _ => False :=
        ⟨hwritten.1, hwritten.2⟩
      exact hkept.congr fun _ => by simp [hdirect]

theorem emitAll_hands (flags : AnagramFlags) (L : List (List Text)) (w : World) :
    Hands w (emitAll flags L w)
      fun text => flags.output_directly = true ∧ ∃ ws ∈ L, text = phrase ws ++ bytes "\n" := by
  induction L generalizing w with
  | nil => exact (hands_refl w).congr fun _ => by simp
  | cons ws L ih =>
    have hall := (emit_hands flags (phrase ws) w).trans (ih (emit flags (phrase ws) w))
    exact hall.congr fun _ => by simp [and_or_left]

/-- GetAnagrams pushes a new anagram with `-o`. -/
theorem addAnagram_hands (flags : AnagramFlags) (candidate : Text) (w : World) :
    Hands w (addAnagram flags candidate w) fun text => flags.output_directly = true ∧
      candidate ∉ w.anagrams ∧ text = candidate ++ bytes "\n" := by
  unfold addAnagram
  split_ifs with hmem hdirect
  · have hin : candidate ∈ w.anagrams := Std.TreeMap.mem_iff_contains.mpr hmem
    exact (hands_refl w).congr fun _ => by simp [hin]
  · have hout : candidate ∉ w.anagrams := fun h => hmem (Std.TreeMap.mem_iff_contains.mp h)
    exact (hands_push w _).congr fun _ => by simp [hdirect, hout]
  · have hsent := (hands_write w candidate).trans (hands_message le_rfl)
    exact hsent.congr fun _ => by simp [hdirect]

theorem addAnagram_direct {flags : AnagramFlags} (hdirect : flags.output_directly = true)
    (candidate : Text) (w : World) : (addAnagram flags candidate w).anagrams = w.anagrams := by
  unfold addAnagram
  split_ifs <;> rfl

/-! ## The gather block -/

section
variable {flags : AnagramFlags} {excludeset : StringMap} {master_count : OccupancyHash}

/-- What the candidates taken so far have come to, since the state `s₀`: the comparisons have put
them into the subset, or they have been pushed as anagrams. -/
structure Collected (flags : AnagramFlags) (master_count : OccupancyHash) (s₀ : GatherState)
    (took : Text → Prop) (s : GatherState) : Prop where
  tidy : s.candidate_count.Tidy
  subset : ∀ y, y ∈ s.subset ↔
    y ∈ s₀.subset ∨ ∃ x, took x ∧ y = cString x ∧ Takes master_count (cString x)
  hands : Hands s₀.world s.world fun text => flags.output_directly = true ∧
    ∃ x, took x ∧ Matches master_count (cString x) ∧ cString x ∉ s₀.world.anagrams ∧
      text = cString x ++ bytes "\n"
  direct : flags.output_directly = true → s.world.anagrams = s₀.world.anagrams

theorem collected_start {s₀ : GatherState} (htidy : s₀.candidate_count.Tidy) :
    Collected flags master_count s₀ (fun _ => False) s₀ :=
  ⟨htidy, by simp, (hands_refl _).congr fun _ => by simp, fun _ => rfl⟩

theorem Collected.congr {s₀ s : GatherState} {took took' : Text → Prop}
    (h : Collected flags master_count s₀ took s) (hsame : ∀ x, took x ↔ took' x) :
    Collected flags master_count s₀ took' s := by
  have heq : took = took' := funext fun x => propext (hsame x)
  exact heq ▸ h

/-- What one candidate pushes. -/
theorem consider_hands {s s' : GatherState} {x : Text} (htidy : s.candidate_count.Tidy)
    (hout : x ∉ excludeset) (hrun : consider flags excludeset master_count s x = .ok s') :
    Hands s.world s'.world (fun text => flags.output_directly = true ∧
      Matches master_count (cString x) ∧ cString x ∉ s.world.anagrams ∧
      text = cString x ++ bytes "\n") ∧
    (flags.output_directly = true → s'.world.anagrams = s.world.anagrams) := by
  obtain ⟨-, -, hcase⟩ := consider_cases htidy hout hrun
  rcases hcase with ⟨hmatches, -, -, hworld⟩ | ⟨hno, -, -, hworld⟩ | ⟨hno, -, -, hworld⟩
  · rw [hworld]
    refine ⟨(addAnagram_hands flags (cString x) s.world).congr fun text => by simp [hmatches], ?_⟩
    exact fun hdirect => addAnagram_direct hdirect (cString x) s.world
  · rw [hworld]
    exact ⟨(hands_refl _).congr fun text => by simp [hno], fun _ => rfl⟩
  · rw [hworld]
    exact ⟨(hands_refl _).congr fun text => by simp [hno], fun _ => rfl⟩

/-- One more candidate. -/
theorem consider_collected {s₀ s s' : GatherState} {took : Text → Prop} {x : Text}
    (h : Collected flags master_count s₀ took s)
    (hrun : consider flags excludeset master_count s x = .ok s') :
    s'.chars_completed = s.chars_completed ∧
      Collected flags master_count s₀ (fun y => took y ∨ (y ∉ excludeset ∧ y = x)) s' := by
  by_cases hin : x ∈ excludeset
  · rw [consider_excluded hin] at hrun
    cases hrun
    refine ⟨rfl, h.congr fun y => ⟨Or.inl, ?_⟩⟩
    rintro (hy | ⟨hy, rfl⟩)
    · exact hy
    · exact absurd hin hy
  · have hor : ∀ Q : Text → Prop, (∃ y, (took y ∨ (y ∉ excludeset ∧ y = x)) ∧ Q y) ↔
        (∃ y, took y ∧ Q y) ∨ Q x := by
      intro Q
      constructor
      · rintro ⟨y, hy | ⟨-, rfl⟩, hQ⟩
        · exact Or.inl ⟨y, hy, hQ⟩
        · exact Or.inr hQ
      · rintro (⟨y, hy, hQ⟩ | hQ)
        · exact ⟨y, Or.inl hy, hQ⟩
        · exact ⟨x, Or.inr ⟨hin, rfl⟩, hQ⟩
    obtain ⟨htidy, hchars, -, hsubset⟩ := consider_mem h.tidy hin hrun
    obtain ⟨hhands, hsame⟩ := consider_hands h.tidy hin hrun
    refine ⟨hchars, htidy, fun y => ?_, ?_, fun hdirect => (hsame hdirect).trans (h.direct hdirect)⟩
    · rw [hor, ← or_assoc, ← h.subset, hsubset]
    · simp only [hor, and_or_left]
      refine (h.hands.trans hhands).congr fun text => ?_
      refine or_congr_right (and_congr_right fun hdirect => ?_)
      rw [h.direct hdirect]

section
variable {t : Trie} {columns : Text → Nat → Nat} {max_diff_ : Int} {fuel : Nat}
  {chars_completed : UInt8 → Bool} {cs : List UInt8} {c : UInt8}

/-- One more character of the phrase. -/
theorem gatherLetter_collected {s₀ s s' : GatherState}
    (hcompleted : ∀ d, s.chars_completed d = true ↔ s₀.chars_completed d = true ∨ d ∈ cs)
    (h : Collected flags master_count s₀
      (Brought t columns max_diff_ fuel excludeset s₀.chars_completed cs) s)
    (hrun : gatherLetter t columns max_diff_ fuel flags excludeset master_count s c = .ok s') :
    (∀ d, s'.chars_completed d = true ↔ s₀.chars_completed d = true ∨ d ∈ cs ++ [c]) ∧
      Collected flags master_count s₀
        (Brought t columns max_diff_ fuel excludeset s₀.chars_completed (cs ++ [c])) s' := by
  unfold gatherLetter at hrun
  split_ifs at hrun with hdone
  · cases hrun
    have hold := (hcompleted c).mp hdone
    refine ⟨fun d => ?_, h.congr fun x => (brought_completed hold x).symm⟩
    rw [hcompleted, List.mem_append, List.mem_singleton, ← or_assoc]
    refine ⟨Or.inl, ?_⟩
    rintro (hd | rfl)
    · exact hd
    · exact hold
  · have hnew : s₀.chars_completed c = false := by
      rw [← Bool.not_eq_true]
      exact fun hold => hdone ((hcompleted c).mpr (Or.inl hold))
    obtain ⟨m, hm, hrun⟩ := bind_eq_ok.mp hrun
    have hloop := foldlM_keeps (I := fun its s₁ =>
      s₁.chars_completed = Function.update s.chars_completed c true ∧
        Collected flags master_count s₀ (fun x =>
          Brought t columns max_diff_ fuel excludeset s₀.chars_completed cs x ∨
            (x ∉ excludeset ∧ x ∈ its.map Prod.snd)) s₁) m.toList ?_ ?_ hrun
    · obtain ⟨hchars, hcollected⟩ := hloop
      refine ⟨fun d => ?_, hcollected.congr fun x => (brought_snoc hnew hm x).symm⟩
      rw [hchars, update_completed hcompleted, List.mem_append, List.mem_singleton, or_assoc]
    · rintro its it rest s₁ s₂ - ⟨hchars, hcollected⟩ hstep
      obtain ⟨hchars', hcollected'⟩ := consider_collected hcollected hstep
      refine ⟨hchars'.trans hchars, hcollected'.congr fun x => ?_⟩
      simp only [List.map_append, List.map_cons, List.map_nil, List.mem_append,
        List.mem_singleton, and_or_left, or_assoc]
    · exact ⟨rfl, h.tidy, fun y => by simpa using h.subset y, by simpa using h.hands, h.direct⟩

/-- The gather block takes the candidates that the lookups bring. -/
theorem gather_collected {word : Text} {s₀ s : GatherState} (htidy : s₀.candidate_count.Tidy)
    (hrun : gather t columns max_diff_ fuel flags excludeset master_count word s₀ = .ok s) :
    Collected flags master_count s₀
      (Brought t columns max_diff_ fuel excludeset s₀.chars_completed (c_str word)) s := by
  have hloop := foldlM_keeps (I := fun cs s =>
    (∀ d, s.chars_completed d = true ↔ s₀.chars_completed d = true ∨ d ∈ cs) ∧
      Collected flags master_count s₀
        (Brought t columns max_diff_ fuel excludeset s₀.chars_completed cs) s)
    (f := gatherLetter t columns max_diff_ fuel flags excludeset master_count) (c_str word) ?_ ?_
    hrun
  · exact hloop.2
  · rintro cs c rest s s' - ⟨hcompleted, hcollected⟩ hstep
    exact gatherLetter_collected hcompleted hcollected hstep
  · exact ⟨by simp, (collected_start htidy).congr fun x => by simp [Brought]⟩

end

end

/-! ## A call of GetAnagrams -/

section
variable (t : Trie) (columns : Text → Nat → Nat) (max_diff_ : Int) (fuel cpu_tot : Nat)
  (flags : AnagramFlags) (excludeset : StringMap) (prior : OccupancyHash) (word : Text)
  (thread_index : Int) (chars_completed : UInt8 → Bool) (subset : StringMap) (w : World)

/-- The key is in the subset that the threads combine: from the start, or because the first thread
gathers it. -/
def InSubset (key : Text) : Prop :=
  key ∈ subset ∨ (thread_index = 0 ∧ ∃ master_count x,
    OccupancyHash.ofWord prior word = .ok master_count ∧
    Brought t columns max_diff_ fuel excludeset chars_completed (c_str word) x ∧
    key = cString x ∧ Takes master_count (cString x))

/-- The keys of this subset, in the order of the map. -/
structure SubsetKeys (keys : List Text) : Prop where
  sorted : keys.Pairwise fun a b => compare a b = .lt
  mem : ∀ key, key ∈ keys ↔ InSubset t columns max_diff_ fuel excludeset prior word thread_index
    chars_completed subset key

/-- All that the call pushes is short. With `-o` these are the anagrams of one word, which the
first thread looks up, and the phrases of the search from the starts of the thread, and with `-s`
the rows of the subset. -/
structure ShortOutput : Prop where
  anagrams : thread_index = 0 → flags.output_directly = true → ∀ master_count x,
    OccupancyHash.ofWord prior word = .ok master_count →
    Brought t columns max_diff_ fuel excludeset chars_completed (c_str word) x →
    Matches master_count (cString x) → cString x ∉ w.anagrams → (cString x).length ≤ 254
  rows : thread_index = 0 → flags.print_subset = true → ∀ keys, SubsetKeys t columns max_diff_ fuel
    excludeset prior word thread_index chars_completed subset keys → ShortRows keys
  phrases : flags.output_directly = true → ∀ keys, SubsetKeys t columns max_diff_ fuel
    excludeset prior word thread_index chars_completed subset keys →
    ∀ master_count j ws, countOf word = .ok master_count →
      FoundFrom (combineRules 64 flags master_count) (keys.drop thread_index.toNat) (j * cpu_tot)
        ws → (phrase ws).length ≤ 254

end

/-- A line is short when its text has at most 254 bytes. -/
theorem shortText_line (text : Text) : ShortText (text ++ bytes "\n") ↔ text.length ≤ 254 := by
  have hline : (bytes "\n").length = 1 := by decide
  unfold ShortText kOutputQueueItemSize
  rw [List.length_append, hline]
  omega

section
variable {t : Trie} {columns : Text → Nat → Nat} {max_diff_ : Int} {fuel cpu_tot : Nat}
  {flags : AnagramFlags} {excludeset : StringMap} {prior : OccupancyHash} {word : Text}
  {thread_index : Int} {chars_completed : UInt8 → Bool} {subset subset' : StringMap}
  {w w' : World}

theorem combineSubsetsFast_hands
    (hrun : combineSubsetsFast fuel cpu_tot flags word subset thread_index w = .ok w') :
    Hands w w' fun text => flags.output_directly = true ∧ ∃ ws, (∃ master_count j,
      countOf word = .ok master_count ∧ FoundFrom (combineRules 64 flags master_count)
        (subset.keys.drop thread_index.toNat) (j * cpu_tot) ws) ∧
      text = phrase ws ++ bytes "\n" := by
  rw [combineSubsetsFast, combineWith_eq] at hrun
  obtain ⟨L, hL, rfl⟩ := map_eq_ok.mp hrun
  unfold threadSearch at hL
  obtain ⟨master_count, hcount, hsweep⟩ := bind_eq_ok.mp hL
  refine (emitAll_hands flags L w).congr fun text => and_congr_right fun _ => ?_
  refine exists_congr fun ws => and_congr_left fun _ => ?_
  rw [mem_sweep _ _ hsweep]
  constructor
  · rintro ⟨j, hj⟩
    exact ⟨master_count, j, hcount, hj⟩
  · rintro ⟨master_count', j, hcount', hj⟩
    obtain rfl := Except.ok.inj (hcount.symm.trans hcount')
    exact ⟨j, hj⟩

/-- The block of the first thread. -/
theorem gatherBlock_hands (hrun : gatherBlock t columns max_diff_ fuel flags excludeset prior word
      chars_completed subset w = .ok (subset', w')) :
    ∃ master_count, ∃ rows : List Text, OccupancyHash.ofWord prior word = .ok master_count ∧
      (∀ key, key ∈ subset' ↔ key ∈ subset ∨ ∃ x, Brought t columns max_diff_ fuel excludeset
        chars_completed (c_str word) x ∧ key = cString x ∧ Takes master_count (cString x)) ∧
      ((∀ row ∈ rows, ShortText row) ↔ (flags.print_subset = true → ShortRows subset'.keys)) ∧
      Hands w w' fun text => (flags.output_directly = true ∧ ∃ x, Brought t columns max_diff_ fuel
        excludeset chars_completed (c_str word) x ∧ Matches master_count (cString x) ∧
        cString x ∉ w.anagrams ∧ text = cString x ++ bytes "\n") ∨ text ∈ rows := by
  unfold gatherBlock at hrun
  obtain ⟨master_count, hcount, hrun⟩ := bind_eq_ok.mp hrun
  obtain ⟨s, hs, hrun⟩ := bind_eq_ok.mp hrun
  obtain ⟨rfl, rfl⟩ := Prod.mk.inj (Except.ok.inj hrun)
  have hcollected := gather_collected OccupancyHash.tidy_new hs
  by_cases hprint : flags.print_subset = true
  · obtain ⟨rows, hrows, hshort⟩ := printSubset_pushes s.subset s.world
    refine ⟨master_count, rows, hcount, hcollected.subset, ?_, ?_⟩
    · simpa [hprint, ShortText] using hshort
    · rw [if_pos hprint, hrows]
      exact hcollected.hands.trans (hands_pushes rows s.world)
  · refine ⟨master_count, [], hcount, hcollected.subset, by simp [hprint], ?_⟩
    rw [if_neg hprint]
    exact hcollected.hands.congr fun text => by simp

/-- A call is the block of the first thread, or none, and then the search. -/
theorem getAnagrams_cases
    (hrun : getAnagrams t columns max_diff_ fuel cpu_tot flags excludeset prior word thread_index
      chars_completed subset w = .ok (subset', w')) :
    ∃ w₁, ((thread_index = 0 ∧ gatherBlock t columns max_diff_ fuel flags excludeset prior word
        chars_completed subset w = .ok (subset', w₁)) ∨
      (thread_index ≠ 0 ∧ subset' = subset ∧ w₁ = w)) ∧
      combineSubsetsFast fuel cpu_tot flags word subset' thread_index w₁ = .ok w' := by
  unfold getAnagrams at hrun
  dsimp only at hrun
  split_ifs at hrun with hindex
  · obtain ⟨⟨gathered, w₁⟩, hgather, hrun⟩ := bind_eq_ok.mp hrun
    obtain ⟨w₂, hcombine, hrun⟩ := bind_eq_ok.mp hrun
    obtain ⟨rfl, rfl⟩ := Prod.mk.inj (Except.ok.inj hrun)
    exact ⟨w₁, Or.inl ⟨hindex, hgather⟩, hcombine⟩
  · rw [bind_ok] at hrun
    obtain ⟨w₂, hcombine, hrun⟩ := bind_eq_ok.mp hrun
    obtain ⟨rfl, rfl⟩ := Prod.mk.inj (Except.ok.inj hrun)
    exact ⟨w, Or.inr ⟨hindex, rfl, rfl⟩, hcombine⟩

/-- What holds of the keys of the subset holds of the one list of them. -/
theorem forall_subsetKeys
    (hmem : ∀ key, key ∈ subset' ↔ InSubset t columns max_diff_ fuel excludeset prior word
      thread_index chars_completed subset key) (P : List Text → Prop) :
    (∀ keys, SubsetKeys t columns max_diff_ fuel excludeset prior word thread_index chars_completed
      subset keys → P keys) ↔ P subset'.keys := by
  constructor
  · intro hall
    refine hall _ ⟨keys_pairwise subset', fun key => ?_⟩
    rw [Std.TreeMap.mem_keys, hmem]
  · intro h keys hkeys
    have heq : keys = subset'.keys := by
      apply eq_of_ordered hkeys.sorted (keys_pairwise subset')
      intro key
      rw [Std.TreeMap.mem_keys, hkeys.mem, hmem]
    exact heq ▸ h

/-- The phrases of the search are short when their lines are. -/
theorem forall_phrase_short {rules : OccupancyHash → Rules Text Fault} {ks : List Text} :
    (∀ text, (flags.output_directly = true ∧ ∃ ws, (∃ master_count j,
        countOf word = .ok master_count ∧ FoundFrom (rules master_count) ks (j * cpu_tot) ws) ∧
      text = phrase ws ++ bytes "\n") → ShortText text) ↔
    (flags.output_directly = true → ∀ master_count j ws, countOf word = .ok master_count →
      FoundFrom (rules master_count) ks (j * cpu_tot) ws → (phrase ws).length ≤ 254) := by
  constructor
  · intro hall hdirect master_count j ws hcount hfound
    rw [← shortText_line]
    exact hall _ ⟨hdirect, ws, ⟨master_count, j, hcount, hfound⟩, rfl⟩
  · rintro hall _ ⟨hdirect, ws, ⟨master_count, j, hcount, hfound⟩, rfl⟩
    rw [shortText_line]
    exact hall hdirect master_count j ws hcount hfound

/-- What the search pushes is short when its phrases are. -/
theorem shortOutput_later (hindex : thread_index ≠ 0)
    (hcombine : combineSubsetsFast fuel cpu_tot flags word subset thread_index w = .ok w')
    (hsize : w'.anagrams.size < 2 ^ 64) :
    (∀ text, .push text ∈ w'.effects.drop w.effects.length → ShortText text) ↔
      ShortOutput t columns max_diff_ fuel cpu_tot flags excludeset prior word thread_index
        chars_completed subset w := by
  have hsubset : ∀ key, key ∈ subset ↔ InSubset t columns max_diff_ fuel excludeset prior word
      thread_index chars_completed subset key := by
    intro key
    exact ⟨Or.inl, fun h => h.resolve_right fun h => hindex h.1⟩
  rw [(combineSubsetsFast_hands hcombine).all_short hsize, forall_phrase_short]
  constructor
  · intro hphrases
    refine ⟨fun h => absurd h hindex, fun h => absurd h hindex, fun hdirect => ?_⟩
    rw [forall_subsetKeys hsubset]
    exact hphrases hdirect
  · intro h hdirect
    exact (forall_subsetKeys hsubset _).mp (h.phrases hdirect)

/-- Before it, the first thread pushes its anagrams and the rows of the subset. -/
theorem shortOutput_first {w₁ : World} (hindex : thread_index = 0)
    (hgather : gatherBlock t columns max_diff_ fuel flags excludeset prior word chars_completed
      subset w = .ok (subset', w₁))
    (hcombine : combineSubsetsFast fuel cpu_tot flags word subset' thread_index w₁ = .ok w')
    (hsize : w'.anagrams.size < 2 ^ 64) :
    (∀ text, .push text ∈ w'.effects.drop w.effects.length → ShortText text) ↔
      ShortOutput t columns max_diff_ fuel cpu_tot flags excludeset prior word thread_index
        chars_completed subset w := by
  obtain ⟨master_count, rows, hcount, hmem, hrows, hhands⟩ := gatherBlock_hands hgather
  have hsubset : ∀ key, key ∈ subset' ↔ InSubset t columns max_diff_ fuel excludeset prior word
      thread_index chars_completed subset key := by
    intro key
    rw [hmem]
    refine or_congr_right ⟨?_, ?_⟩
    · rintro ⟨x, hx⟩
      exact ⟨hindex, master_count, x, hcount, hx⟩
    · rintro ⟨-, master_count', x, hcount', hx⟩
      obtain rfl := Except.ok.inj (hcount.symm.trans hcount')
      exact ⟨x, hx⟩
  rw [(hhands.trans (combineSubsetsFast_hands hcombine)).all_short hsize]
  simp only [or_imp, forall_and, forall_phrase_short]
  rw [hrows]
  constructor
  · rintro ⟨⟨hanagrams, hprint⟩, hphrases⟩
    refine ⟨fun _ hdirect master_count' x hcount' hx hmatches hnew => ?_, fun _ hflag => ?_,
      fun hdirect => ?_⟩
    · obtain rfl := Except.ok.inj (hcount.symm.trans hcount')
      rw [← shortText_line]
      exact hanagrams _ ⟨hdirect, x, hx, hmatches, hnew, rfl⟩
    · rw [forall_subsetKeys hsubset]
      exact hprint hflag
    · rw [forall_subsetKeys hsubset]
      exact hphrases hdirect
  · rintro ⟨hanagrams, hprint, hphrases⟩
    refine ⟨⟨?_, fun hflag => ?_⟩, fun hdirect => ?_⟩
    · rintro _ ⟨hdirect, x, hx, hmatches, hnew, rfl⟩
      rw [shortText_line]
      exact hanagrams hindex hdirect master_count x hcount hx hmatches hnew
    · exact (forall_subsetKeys hsubset _).mp (hprint hindex hflag)
    · exact (forall_subsetKeys hsubset _).mp (hphrases hdirect)

/-- In every call that ends, every pushed text fits its slot exactly when all that the call pushes
is short. From its slot, a text is printed as it is exactly when it fits. A map can have no more
entries than a `size_t` can count. -/
theorem the_pushed_texts_fit_iff_the_output_is_short
    (hrun : getAnagrams t columns max_diff_ fuel cpu_tot flags excludeset prior word thread_index
      chars_completed subset w = .ok (subset', w')) (hsize : w'.anagrams.size < 2 ^ 64) :
    ((∀ text, .push text ∈ w'.effects.drop w.effects.length → ShortText text) ↔
      ShortOutput t columns max_diff_ fuel cpu_tot flags excludeset prior word thread_index
        chars_completed subset w) ∧
    ∀ text : CString, PrintsItself text ↔ ShortText text.bytes := by
  refine ⟨?_, printsItself_iff⟩
  obtain ⟨w₁, hfirst, hcombine⟩ := getAnagrams_cases hrun
  rcases hfirst with ⟨hindex, hgather⟩ | ⟨hindex, rfl, rfl⟩
  · exact shortOutput_first hindex hgather hcombine hsize
  · exact shortOutput_later hindex hcombine hsize

end

theorem the_pushed_texts_of_ab_fit_iff_its_output_is_short :
    ∃ T subset' w', Trie.insertAll 9 [bytes "a", bytes "b", bytes "ba"] .empty = .ok T ∧
      getAnagrams T (fun _ _ => 7) 0 80 1 ⟨true, true, true⟩ ∅ .new (bytes "ab") 0
        (fun _ => false) ∅ .start = .ok (subset', w') ∧
      ((∀ text, .push text ∈ w'.effects.drop World.start.effects.length → ShortText text) ↔
        ShortOutput T (fun _ _ => 7) 0 80 1 ⟨true, true, true⟩ ∅ .new (bytes "ab") 0
          (fun _ => false) ∅ .start) ∧
      ∀ text : CString, PrintsItself text ↔ ShortText text.bytes := by
  have hruns : (do
      let T ← Trie.insertAll 9 [bytes "a", bytes "b", bytes "ba"] .empty
      let r ← getAnagrams T (fun _ _ => 7) 0 80 1 ⟨true, true, true⟩ ∅ .new (bytes "ab") 0
        (fun _ => false) ∅ .start
      .ok (decide (r.2.anagrams.size < 2 ^ 64))) = (.ok true : Run Bool) := by decide +kernel
  obtain ⟨T, hinsert, hruns⟩ := bind_eq_ok.mp hruns
  obtain ⟨⟨subset', w'⟩, hrun, hsize⟩ := bind_eq_ok.mp hruns
  exact ⟨T, subset', w', hinsert, hrun, the_pushed_texts_fit_iff_the_output_is_short hrun
    (of_decide_eq_true (Except.ok.inj hsize))⟩

/-- Eight words of 32 bytes that differ in the last letter. -/
def longWords : List Text := (bytes "bcdefghi").map fun c => List.replicate 31 97 ++ [c]

def longRow : Text := [0x2c].intercalate longWords ++ bytes "\n"

/-- With `-s`, the row of these words is pushed for a phrase of 39 letters, and takes 264 bytes. -/
theorem the_row_of_eight_words_of_32_bytes_does_not_fit :
    ∃ T subset' w', Trie.insertAll 300 longWords .empty = .ok T ∧
      getAnagrams T (fun _ _ => 7) 0 300 1 ⟨false, false, true⟩ ∅ .new
        (List.replicate 31 97 ++ bytes "bcdefghi") 0 (fun _ => false) ∅ .start =
        .ok (subset', w') ∧
      ∃ row : CString, row.bytes = longRow ∧ .push longRow ∈ w'.effects ∧ ¬ ShortText longRow ∧
        ¬ PrintsItself row := by
  have hlong : ¬ longRow.length < kOutputQueueItemSize := by decide +kernel
  have hruns : (do
      let T ← Trie.insertAll 300 longWords .empty
      let r ← getAnagrams T (fun _ _ => 7) 0 300 1 ⟨false, false, true⟩ ∅ .new
        (List.replicate 31 97 ++ bytes "bcdefghi") 0 (fun _ => false) ∅ .start
      .ok (decide (.push longRow ∈ r.2.effects))) = (.ok true : Run Bool) := by decide +kernel
  obtain ⟨T, hinsert, hruns⟩ := bind_eq_ok.mp hruns
  obtain ⟨⟨subset', w'⟩, hrun, hpushed⟩ := bind_eq_ok.mp hruns
  refine ⟨T, subset', w', hinsert, hrun, ⟨longRow, by decide +kernel⟩, rfl, ?_, hlong, ?_⟩
  · exact of_decide_eq_true (Except.ok.inj hpushed)
  · exact fun hprints => hlong ((printsItself_iff _).mp hprints)

end anagram
