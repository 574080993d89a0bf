-- When the counts of a run are the true ones. A cell is a signed char, so a count
-- is exact up to 127. As long as no sum goes past that, each comparison of the
-- search is the one of the letters, and the search goes on exactly from the words
-- that leave some.
import Anagram.HashStepLaws

open outcome traced pruned_search

namespace anagram

/-! ## Exact steps -/

/-- The cells of the hash are the numbers of the characters. -/
def OccupancyHash.Counts (h : OccupancyHash) (m : Multiset UInt8) : Prop :=
  ∀ c, (h.char_count c).toInt = m.count c

/-- A count and a sum fill each cell with the true number of the character, and the sign of a
comparison is that of the true multisets. -/
def HashStep.Exact : HashStep → Prop
  | .count h text => ∃ h', h.getCharCountMap text = .ok h' ∧ h'.Counts (letters text)
  | .add h b left right =>
    ∃ h', h.addAssign b = .ok h' ∧ h'.Counts (letters left + letters right)
  | .compare a b left right => ∃ r, a.compare b = .ok r ∧ (r = 0 ↔ letters left = letters right) ∧
      (0 < r ↔ ∃ c, (letters right).count c < (letters left).count c)
  | .slot _ => True

theorem OccupancyHash.Holds.exact {h : OccupancyHash} {m : Multiset UInt8} (hm : h.Holds m)
    (hf : Fits m) : h.Counts m := by
  intro c
  have hc := hf.count_le c
  rw [hm.counts, Int8.toInt_ofNat_of_lt (by omega)]

/-- A cell holds no more than 127. -/
theorem OccupancyHash.Counts.le {h : OccupancyHash} {m : Multiset UInt8} (hm : h.Counts m)
    (c : UInt8) : m.count c ≤ 127 := by
  have hcell := hm c
  have hlt := (h.char_count c).toInt_lt
  omega

theorem not_le_iff_exists_count {m n : Multiset UInt8} :
    ¬ m ≤ n ↔ ∃ c, n.count c < m.count c := by
  rw [Multiset.le_iff_count]
  push Not
  rfl

theorem exact_count {h : OccupancyHash} (hh : h.Holds 0) {text : Text} (hascii : Ascii text)
    (hfits : Fits (letters text)) : (HashStep.count h text).Exact := by
  obtain ⟨h', hrun, hholds⟩ := OccupancyHash.getCharCountMap_holds text hascii hh
    (by simpa using hfits)
  rw [zero_add] at hholds
  exact ⟨h', hrun, hholds.exact hfits⟩

theorem exact_compare {a b : OccupancyHash} {left right : Text} (ha : a.Holds (letters left))
    (hb : b.Holds (letters right)) (hl : Fits (letters left)) (hr : Fits (letters right)) :
    (HashStep.compare a b left right).Exact := by
  obtain ⟨r, hrun, hzero, hneg⟩ := OccupancyHash.compare_holds ha hb hl hr
  refine ⟨r, hrun, hzero, ?_⟩
  rw [← not_le_iff_exists_count, le_iff_eq_or_lt, ← hzero, ← hneg]
  omega

theorem HashStep.Exact.succeeds {e : HashStep} (h : e.Exact) : e.Succeeds := by
  cases e with
  | count h' text =>
    obtain ⟨r, hr, -⟩ := h
    exact ⟨r, hr⟩
  | add h' b left right =>
    obtain ⟨r, hr, -⟩ := h
    exact ⟨r, hr⟩
  | compare a b left right => trivial
  | slot depth => trivial

/-! ## Exact turns -/

variable {slots : Nat} {flags : AnagramFlags} {master_count : OccupancyHash} {word : Text}
  {keys : List Text}

/-- A turn is exact when its sum fits the tables. -/
theorem turn_exact (hword : Fits (letters word)) (hm : master_count.Holds (letters word))
    {ws : List Text} {k : Text} (hws : ∀ w ∈ ws, Ascii w) (hk : Ascii k)
    (hsum : Fits (letters k + total letters ws)) :
    ∀ e ∈ turnSteps slots master_count word (.next ws k), e.Exact := by
  have hphrase : letters (phrase (ws ++ [k])) = letters k + total letters ws := by
    rw [letters_phrase, total_append, total_cons, total_nil, add_zero, add_comm]
  have hwsfits : Fits (letters (phrase ws)) := by
    rw [letters_phrase]
    exact hsum.mono (Multiset.le_add_left _ _)
  have hkfits : Fits (letters k) := hsum.mono (Multiset.le_add_right _ _)
  have hgrown : ∀ w ∈ ws ++ [k], Ascii w := by
    intro w hw
    rcases List.mem_append.mp hw with hw | hw
    · exact hws w hw
    · exact List.mem_singleton.mp hw ▸ hk
  obtain ⟨a, ha, hha⟩ := countOf_holds (ascii_phrase hws) hwsfits
  rw [all_nextSteps_iff ha]
  refine ⟨exact_count OccupancyHash.holds_new hk hkfits, fun b hb => ?_⟩
  obtain ⟨b', hb', hhb⟩ := countOf_holds hk hkfits
  obtain rfl := Except.ok.inj (hb.symm.trans hb')
  obtain ⟨sum, hsum', hhs⟩ := OccupancyHash.addAssign_holds hhb hha (by rwa [letters_phrase])
  refine ⟨⟨sum, hsum', hhs.exact (by rwa [letters_phrase])⟩, fun sum' hs => ?_⟩
  obtain rfl := Except.ok.inj (hs.symm.trans hsum')
  rw [letters_phrase, ← hphrase] at hhs
  rw [← hphrase] at hsum
  refine ⟨exact_compare hhs hm hsum hword, fun r _ _ => ⟨trivial, fun _ => ?_⟩⟩
  exact exact_count OccupancyHash.holds_new (ascii_phrase hgrown) hsum

/-- The verdict of an exact turn is negative when some letters are left. -/
theorem verdict_of_exact {ws : List Text} {k : Text} {a : OccupancyHash}
    (ha : countOf (phrase ws) = .ok a)
    (h : ∀ e ∈ turnSteps slots master_count word (.next ws k), e.Exact) :
    ∃ r, (combineRules slots flags master_count).verdict ws k = .ok r ∧
      (r < 0 ↔ total letters (ws ++ [k]) < letters word) := by
  obtain ⟨⟨b, hb, -⟩, hrest⟩ := (all_nextSteps_iff ha).mp h
  obtain ⟨⟨sum, hsum, -⟩, hrest⟩ := hrest b hb
  obtain ⟨⟨r, hr, hzero, hpos⟩, -⟩ := hrest sum hsum
  refine ⟨r, (verdict_eq_ok ha).mpr ⟨b, sum, hb, hsum, hr⟩, ?_⟩
  rw [← not_le_iff_exists_count] at hpos
  rw [← letters_phrase, @lt_iff_le_and_ne _ _ (letters _), ne_eq, ← hzero]
  constructor
  · intro hneg
    refine ⟨?_, by omega⟩
    by_contra hnot
    have := hpos.mpr hnot
    omega
  · rintro ⟨hle, hne⟩
    have hnot : ¬ 0 < r := fun h => hpos.mp h hle
    omega

/-! ## No counter overflows -/

/-- Every key is over the bytes 1 to 127 and has some letters of the master, but not all. -/
def Lesser (word : Text) (keys : List Text) : Prop :=
  ∀ k ∈ keys, Ascii k ∧ letters k < letters word

theorem Partials.lesser (hp : Partials word keys) (hascii : Ascii word) : Lesser word keys :=
  fun k hk => ⟨hp.ascii hascii hk, (hp k hk).2.2⟩

/-- The phrase itself has all its letters, so no start is stuck. -/
theorem Lesser.not_stuck (hkeys : Lesser word keys) {k : Text} (hk : k ∈ keys) :
    (!flags.allow_dupes && k == word) = false := by
  have hne : k ≠ word := fun h => (hkeys k hk).2.ne (by rw [h])
  simp [hne]

/-- Without `-d`, no word is the whole phrase before it. -/
def NotPassedOver (flags : AnagramFlags) (ws : List Text) : Prop :=
  flags.allow_dupes = true ∨ ∀ pre k, pre ≠ [] → pre ++ [k] <+: ws → k ≠ phrase pre

/-- No sum that the search of the thread compares has a character more than 127 times. These are
the sums of a word and of the words before it, from one of the places of the thread, where those
leave some letters of the master. -/
def CountersSuffice (flags : AnagramFlags) (cpu_tot : Nat) (word : Text) (keys : List Text)
    (thread_index : Int) : Prop :=
  ∀ j k rest ys l, (keys.drop thread_index.toNat).drop (j * cpu_tot) = k :: rest →
    Drawn (k :: rest) (ys ++ [l]) → NotPassedOver flags (k :: ys ++ [l]) →
    total letters (k :: ys) < letters word →
    ∀ c, (letters l + total letters (k :: ys)).count c ≤ 127

theorem unskipped_iff_notPassedOver (k : Text) (ys : List Text) :
    Unskipped (combineRules slots flags master_count) [k] ys ↔ NotPassedOver flags (k :: ys) := by
  induction ys using List.reverseRecOn with
  | nil =>
    refine ⟨fun _ => Or.inr fun pre l hne hpre => ?_, fun _ => trivial⟩
    have hlen := hpre.length_le
    have hpos := List.length_pos_iff.mpr hne
    simp only [List.length_append, List.length_singleton] at hlen
    omega
  | append_singleton ys l ih =>
    rw [unskipped_append, ih, ← List.cons_append]
    have hskip : Unskipped (combineRules slots flags master_count) ([k] ++ ys) [l] ↔
        (flags.allow_dupes = true ∨ l ≠ phrase (k :: ys)) := by
      simp only [Unskipped, combineRules, List.singleton_append, and_true]
      cases flags.allow_dupes <;> simp
    rw [hskip]
    unfold NotPassedOver
    simp only [List.prefix_concat_iff]
    cases hd : flags.allow_dupes with
    | true => simp
    | false =>
      simp only [Bool.false_eq_true, false_or]
      constructor
      · rintro ⟨hold, hlast⟩ pre x hne (heq | hpre)
        · obtain ⟨rfl, hx⟩ := List.append_inj' heq rfl
          exact List.singleton_inj.mp hx ▸ hlast
        · exact hold pre x hne hpre
      · intro h
        exact ⟨fun pre x hne hpre => h pre x hne (Or.inr hpre),
          h (k :: ys) l (by simp) (Or.inl rfl)⟩

/-- Within the bounds of the search, no counter overflows. -/
theorem InBounds.countersSuffice (hb : InBounds word) (hkeys : Lesser word keys)
    (flags : AnagramFlags) (cpu_tot : Nat) (thread_index : Int) :
    CountersSuffice flags cpu_tot word keys thread_index := by
  intro j k rest ys l hj hdrawn _ hlt c
  have hl : l ∈ keys := mem_of_drawn hj hdrawn l (by simp)
  exact (hb.fits_add (hkeys l hl).2.le hlt.le).count_le c

/-- Where the turns on the way are exact, the search goes on exactly from the words that leave
some letters of the master. -/
theorem descends_iff_letters {k : Text} {ys : List Text} (hk : letters k < letters word)
    (hexact : ∀ pre l post, ys = pre ++ l :: post →
      Descends (combineRules slots flags master_count) [k] pre →
      total letters (k :: pre) < letters word →
      (combineRules slots flags master_count).skip (k :: pre) l = false →
      ∃ a, countOf (phrase (k :: pre)) = .ok a ∧
        ∀ e ∈ turnSteps slots master_count word (.next (k :: pre) l), e.Exact) :
    Descends (combineRules slots flags master_count) [k] ys ↔
      NotPassedOver flags (k :: ys) ∧ total letters (k :: ys) < letters word := by
  rw [← @unskipped_iff_notPassedOver slots flags master_count k ys]
  apply descends_iff_total [k] ys
  · simpa using hk
  · exact fun y _ => Multiset.zero_le _
  · intro pre l post heq hdesc hlt hskip
    obtain ⟨a, ha, hsteps⟩ := hexact pre l post heq hdesc hlt hskip
    exact verdict_of_exact ha hsteps

/-- A sum of parts of the master fits when no counter overflows. -/
theorem fits_sum (hfits : Fits (letters word)) {ws : List Text} {k : Text}
    (hk : letters k < letters word) (hlt : total letters ws < letters word)
    (hcount : ∀ c, (letters k + total letters ws).count c ≤ 127) :
    Fits (letters k + total letters ws) := by
  have hin : ∀ c ∈ letters k + total letters ws, c ∈ letters word := by
    intro c hc
    rcases Multiset.mem_add.mp hc with hc | hc
    · exact Multiset.mem_of_le hk.le hc
    · exact Multiset.mem_of_le hlt.le hc
  refine ⟨fun c hc => hfits.ascii c (hin c hc), hcount, ?_⟩
  refine (Finset.card_le_card fun c hc => ?_).trans hfits.distinct_le
  exact Multiset.mem_toFinset.mpr (hin c (Multiset.mem_toFinset.mp hc))

section
variable (hkeys : Lesser word keys) (hfits : Fits (letters word))
include hkeys hfits

/-- Where no counter overflows, every turn that the search could get to is exact. -/
theorem exact_of_suffice (hm : master_count.Holds (letters word)) {cpu_tot : Nat}
    {thread_index : Int} (hsuffice : CountersSuffice flags cpu_tot word keys thread_index)
    {j : Nat} {k l : Text} {rest ys : List Text}
    (hj : (keys.drop thread_index.toNat).drop (j * cpu_tot) = k :: rest)
    (hdrawn : Drawn (k :: rest) (ys ++ [l])) (htaken : NotPassedOver flags (k :: ys ++ [l]))
    (hlt : total letters (k :: ys) < letters word) :
    ∃ a, countOf (phrase (k :: ys)) = .ok a ∧
      ∀ e ∈ turnSteps slots master_count word (.next (k :: ys) l), e.Exact := by
  have hmem := mem_of_drawn hj hdrawn
  have hascii : ∀ y ∈ k :: ys, Ascii y := fun y hy =>
    (hkeys y (hmem y (List.mem_append_left [l] hy))).1
  obtain ⟨hl, hllt⟩ := hkeys l (hmem l (by simp))
  have hsum := fits_sum hfits hllt hlt (hsuffice j k rest ys l hj hdrawn htaken hlt)
  obtain ⟨a, ha, -⟩ := countOf_holds (ascii_phrase hascii)
    (by rw [letters_phrase]; exact hsum.mono (Multiset.le_add_left _ _))
  exact ⟨a, ha, turn_exact hfits hm hascii hl hsum⟩

/-- Where no counter overflows, the search goes on exactly from the words that leave some letters
of the master. -/
theorem descends_of_suffice (hm : master_count.Holds (letters word)) {cpu_tot : Nat}
    {thread_index : Int} (hsuffice : CountersSuffice flags cpu_tot word keys thread_index)
    {j : Nat} {k : Text} {rest ys : List Text}
    (hj : (keys.drop thread_index.toNat).drop (j * cpu_tot) = k :: rest)
    (hdrawn : Drawn (k :: rest) ys) :
    Descends (combineRules slots flags master_count) [k] ys ↔
      NotPassedOver flags (k :: ys) ∧ total letters (k :: ys) < letters word := by
  have hk := (hkeys k (mem_of_drawn hj hdrawn k List.mem_cons_self)).2
  refine descends_iff_letters hk fun pre l post heq hdesc hlt hskip => ?_
  have hpre : Drawn (k :: rest) (pre ++ [l]) :=
    Drawn.of_append (show Drawn (k :: rest) ((pre ++ [l]) ++ post) by simpa [heq] using hdrawn)
  have htaken : NotPassedOver flags (k :: (pre ++ [l])) := by
    rw [← @unskipped_iff_notPassedOver slots flags master_count, unskipped_append]
    exact ⟨hdesc.unskipped, hskip, trivial⟩
  exact exact_of_suffice hkeys hfits hm hsuffice hj hpre htaken hlt

/-- Where no counter overflows, every step of the thread is exact. -/
theorem thread_exact (hascii : Ascii word) {cpu_tot : Nat} {thread_index : Int}
    (hsuffice : CountersSuffice flags cpu_tot word keys thread_index) (fuel : Nat) (w : World) :
    ∀ e ∈ (combineInSteps slots fuel cpu_tot flags word keys thread_index w).steps, e.Exact := by
  obtain ⟨master_count, hcount, hm⟩ := countOf_holds hascii hfits
  refine all_thread_steps (exact_count OccupancyHash.holds_new hascii hfits) (fun k hk => ?_)
    fun m hcount' j k l rest ys a hj hdrawn hdesc hskip _ => ?_
  · obtain ⟨hkascii, hklt⟩ := hkeys k hk
    exact exact_count OccupancyHash.holds_new hkascii (hfits.mono hklt.le)
  · obtain rfl := Except.ok.inj (hcount.symm.trans hcount')
    have htaken : NotPassedOver flags (k :: (ys ++ [l])) := by
      rw [← @unskipped_iff_notPassedOver slots flags master_count, unskipped_append]
      exact ⟨hdesc.unskipped, hskip, trivial⟩
    have hlt := ((descends_of_suffice hkeys hfits hm hsuffice hj hdrawn.of_append).mp hdesc).2
    obtain ⟨-, -, hsteps⟩ := exact_of_suffice hkeys hfits hm hsuffice hj hdrawn htaken hlt
    exact hsteps

/-- When the array of the hashes is large enough for the run, exact steps mean that no counter
overflows. -/
theorem suffice_of_thread_exact (hascii : Ascii word) {fuel cpu_tot : Nat} (hcpu : 1 ≤ cpu_tot)
    (hfuel : keys.length < fuel) (hslots : slots + 1 < fuel) {thread_index : Int} {w : World}
    (hwithin : ∀ e ∈ (combineInSteps slots fuel cpu_tot flags word keys thread_index w).steps,
      e.Within slots)
    (hexact : ∀ e ∈ (combineInSteps slots fuel cpu_tot flags word keys thread_index w).steps,
      e.Exact) : CountersSuffice flags cpu_tot word keys thread_index := by
  obtain ⟨master_count, hcount, hm⟩ := countOf_holds hascii hfits
  have hall := (@thread_steps_iff slots flags (fun e => e.Exact ∧ e.Within slots) word keys fuel
    cpu_tot hcpu hfuel hslots (fun k hk => hkeys.not_stuck hk) thread_index w
    fun _ _ t _ _ h e he => ⟨(h e he).1.succeeds, (h e he).2⟩).mp
      fun e he => ⟨hexact e he, hwithin e he⟩
  have hturns := hall.2 master_count hcount
  intro j k rest ys l hj hdrawn htaken hlt c
  have hturn : ∀ pre x, (∃ post, ys ++ [l] = pre ++ x :: post) →
      Descends (combineRules slots flags master_count) [k] pre →
      (combineRules slots flags master_count).skip (k :: pre) x = false →
      ∃ a, countOf (phrase (k :: pre)) = .ok a ∧
        ∀ e ∈ turnSteps slots master_count word (.next (k :: pre) x), e.Exact := by
    rintro pre x ⟨post, heq⟩ hdesc hskip
    have hpre : Drawn (k :: rest) (pre ++ [x]) :=
      Drawn.of_append (show Drawn (k :: rest) ((pre ++ [x]) ++ post) by simpa [heq] using hdrawn)
    obtain ⟨hentered, hsteps⟩ := hturns _
      ⟨j, k, rest, hj, Or.inr ⟨pre, x, rfl, hpre, hdesc, hskip⟩⟩
    obtain ⟨-, a, ha⟩ := enter_eq_ok.mp hentered
    exact ⟨a, ha, fun e he => (hsteps e he).1⟩
  have hun := (@unskipped_iff_notPassedOver slots flags master_count k (ys ++ [l])).mpr htaken
  rw [unskipped_append] at hun
  have hk := (hkeys k (mem_of_drawn hj hdrawn k List.mem_cons_self)).2
  have hdesc := (descends_iff_letters hk
    fun pre x post heq hdesc _ hskip => hturn pre x ⟨post ++ [l], by simp [heq]⟩ hdesc hskip).mpr
      ⟨unskipped_iff_notPassedOver k ys |>.mp hun.1, hlt⟩
  obtain ⟨a, ha, hsteps⟩ := hturn ys l ⟨[], rfl⟩ hdesc hun.2.1
  obtain ⟨⟨b, hb, -⟩, hrest⟩ := (all_nextSteps_iff ha).mp hsteps
  obtain ⟨⟨sum, -, hsum⟩, -⟩ := hrest b hb
  rw [letters_phrase] at hsum
  exact hsum.le c

end

end anagram
