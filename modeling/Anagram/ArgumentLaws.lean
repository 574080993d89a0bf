-- The laws of the command line (main.cc). The program takes its arguments exactly
-- when they are flags that it knows and then words that are not all blank, and
-- each setting says whether its flag was given.
import Anagram.ExcludeLaws

namespace anagram

/-! ## Flags and words -/

def Dashed (arg : Text) : Prop := arg.head? = some 0x2d

instance (arg : Text) : Decidable (Dashed arg) := inferInstanceAs (Decidable (_ = _))

/-- The arguments up to the first word. -/
def flagsOf (args : List Text) : List Text := args.takeWhile fun arg => decide (Dashed arg)

def wordsOf (args : List Text) : List Text := args.dropWhile fun arg => decide (Dashed arg)

/-- A flag that the program has a case for. -/
def KnownFlag (arg : Text) : Prop := ∃ c ∈ bytes "vbdesto", ∃ rest, arg = 0x2d :: c :: rest

/-- Some argument is this flag. -/
def Given (args : List Text) (c : UInt8) : Prop := ∃ rest, 0x2d :: c :: rest ∈ args

/-- The words, each with a space after it. -/
def joined (words : List Text) : Text := words.flatMap fun w => w ++ bytes " "

theorem flags_append_words (args : List Text) : flagsOf args ++ wordsOf args = args :=
  List.takeWhile_append_dropWhile

theorem dashed_of_mem_flagsOf {args : List Text} {f : Text} (h : f ∈ flagsOf args) :
    Dashed f := by
  have hdash := List.mem_takeWhile_imp h
  exact of_decide_eq_true hdash

theorem dashed_def {arg : Text} : Dashed arg ↔ arg.head? = some 0x2d := Iff.rfl

theorem dashed_cons (rest : Text) : Dashed (0x2d :: rest) := rfl

theorem dashed_iff {arg : Text} : Dashed arg ↔ ∃ rest, arg = 0x2d :: rest :=
  List.head?_eq_some_iff

/-! ## One flag -/

theorem bytes_known : bytes "vbdesto" = [0x76, 0x62, 0x64, 0x65, 0x73, 0x74, 0x6f] := by decide

theorem readFlag_isSome (a : Arguments) (c : UInt8) (rest : Text) :
    (readFlag a (c :: rest)).isSome ↔ c ∈ bytes "vbdesto" := by
  rw [bytes_known]
  unfold readFlag
  dsimp only
  split_ifs <;> simp [*]

/-- What a flag sets, and what it leaves as it was. -/
structure SetBy (given : UInt8 → Prop) (a a' : Arguments) : Prop where
  word : a'.word = a.word
  big : a'.big_dictionary = true ↔ a.big_dictionary = true ∨ given 0x62
  dupes : a'.flags.allow_dupes = true ↔ a.flags.allow_dupes = true ∨ given 0x64
  subset : a'.flags.print_subset = true ↔ a.flags.print_subset = true ∨ given 0x73
  direct : a'.flags.output_directly = true ↔ a.flags.output_directly = true ∨ given 0x6f

theorem readFlag_sets {a a' : Arguments} {c : UInt8} {rest : Text}
    (h : readFlag a (c :: rest) = some a') : SetBy (fun d => d = c) a a' := by
  unfold readFlag at h
  dsimp only at h
  split_ifs at h with hv hb hd he hs ht ho
  all_goals
    cases h
    subst c
    constructor <;> simp

theorem readArgument_flag {a : Arguments} (ha : a.word = []) {arg : Text} (h : Dashed arg) :
    readArgument a arg = readFlag a arg.tail := by
  unfold readArgument
  rw [if_pos (dashed_def.mp h), if_neg (by simp [ha])]

theorem readArgument_word (a : Arguments) {arg : Text} (h : ¬ Dashed arg) :
    readArgument a arg = some { a with word := a.word ++ arg ++ bytes " " } := by
  unfold readArgument
  exact if_neg h

/-- After a word, a flag is an error. -/
theorem readArgument_late {a : Arguments} (ha : a.word ≠ []) {arg : Text} (h : Dashed arg) :
    readArgument a arg = none := by
  unfold readArgument
  rw [if_pos (dashed_def.mp h), if_pos (by simpa using ha)]

/-! ## All arguments -/

/-- Known flags set what they are for. -/
theorem foldlM_flags {fs : List Text} (hknown : ∀ f ∈ fs, KnownFlag f) {a : Arguments}
    (ha : a.word = []) :
    ∃ a', fs.foldlM readArgument a = some a' ∧ SetBy (Given fs) a a' := by
  induction fs generalizing a with
  | nil =>
    refine ⟨a, rfl, ?_⟩
    constructor <;> simp [Given]
  | cons f fs ih =>
    obtain ⟨c, hc, rest, rfl⟩ := hknown f List.mem_cons_self
    obtain ⟨a₁, h₁⟩ := Option.isSome_iff_exists.mp ((readFlag_isSome a c rest).mpr hc)
    have hset := readFlag_sets h₁
    obtain ⟨a', h', hset'⟩ :=
      ih (fun f hf => hknown f (List.mem_cons_of_mem _ hf)) (hset.word.trans ha)
    have hgiven : ∀ d, Given ((0x2d :: c :: rest) :: fs) d ↔ d = c ∨ Given fs d := by
      intro d
      simp [Given, exists_or]
    refine ⟨a', ?_, hset'.word.trans hset.word, ?_, ?_, ?_, ?_⟩
    · rw [List.foldlM_cons, readArgument_flag ha (dashed_cons _), List.tail_cons, h₁]
      exact h'
    · rw [hset'.big, hset.big, hgiven, or_assoc]
    · rw [hset'.dupes, hset.dupes, hgiven, or_assoc]
    · rw [hset'.subset, hset.subset, hgiven, or_assoc]
    · rw [hset'.direct, hset.direct, hgiven, or_assoc]

/-- No other flags are taken. -/
theorem known_of_foldlM {fs : List Text} (hdashed : ∀ f ∈ fs, Dashed f) {a a' : Arguments}
    (ha : a.word = []) (h : fs.foldlM readArgument a = some a') : ∀ f ∈ fs, KnownFlag f := by
  induction fs generalizing a with
  | nil =>
    intro f hf
    cases hf
  | cons f fs ih =>
    obtain ⟨rest, rfl⟩ := dashed_iff.mp (hdashed f List.mem_cons_self)
    rw [List.foldlM_cons, readArgument_flag ha (dashed_cons _), List.tail_cons] at h
    obtain ⟨a₁, h₁, hrun⟩ := Option.bind_eq_some_iff.mp h
    cases rest with
    | nil => cases h₁
    | cons c rest =>
      have hknown : KnownFlag (0x2d :: c :: rest) :=
        ⟨c, (readFlag_isSome a c rest).mp (Option.isSome_of_eq_some h₁), rest, rfl⟩
      have hmore := ih (fun f hf => hdashed f (List.mem_cons_of_mem _ hf))
        ((readFlag_sets h₁).word.trans ha) hrun
      exact List.forall_mem_cons.mpr ⟨hknown, hmore⟩

/-- Words are joined. -/
theorem foldlM_words {ws : List Text} (hplain : ∀ w ∈ ws, ¬ Dashed w) (a : Arguments) :
    ws.foldlM readArgument a = some { a with word := a.word ++ joined ws } := by
  induction ws generalizing a with
  | nil => simp [joined]
  | cons w ws ih =>
    rw [List.foldlM_cons, readArgument_word a (hplain w List.mem_cons_self)]
    change ws.foldlM readArgument _ = _
    rw [ih fun w hw => hplain w (List.mem_cons_of_mem _ hw)]
    simp [joined]

/-- From the first word on, nothing but words is taken. -/
theorem words_of_foldlM {ws : List Text} {a a' : Arguments}
    (hstart : a.word ≠ [] ∨ ∀ w ∈ ws.head?, ¬ Dashed w)
    (h : ws.foldlM readArgument a = some a') : ∀ w ∈ ws, ¬ Dashed w := by
  induction ws generalizing a with
  | nil =>
    intro w hw
    cases hw
  | cons w ws ih =>
    have hw : ¬ Dashed w := by
      rcases hstart with hne | hhead
      · intro hdash
        rw [List.foldlM_cons, readArgument_late hne hdash] at h
        cases h
      · exact hhead w rfl
    rw [List.foldlM_cons, readArgument_word a hw] at h
    have hmore := ih (Or.inl (by simp [bytes_space])) h
    exact List.forall_mem_cons.mpr ⟨hw, hmore⟩

theorem head_wordsOf (args : List Text) : ∀ w ∈ (wordsOf args).head?, ¬ Dashed w := by
  intro w hw
  have h := List.head?_dropWhile_not (fun arg => decide (Dashed arg)) args
  unfold wordsOf at hw
  rw [Option.mem_def.mp hw] at h
  simpa using h

/-! ## Blank words -/

/-- What is trimmed has something left unless all of it is blank. -/
theorem rtrim_ne_nil {word : Text} : rtrim word ≠ [] ↔ ∃ c ∈ word, isspace c = false := by
  unfold rtrim
  rw [ne_eq, List.reverse_eq_nil_iff, List.dropWhile_eq_nil_iff]
  simp

theorem nonblank_joined {words : List Text} :
    (∃ c ∈ joined words, isspace c = false) ↔ ∃ w ∈ words, ∃ c ∈ w, isspace c = false := by
  have hspace : isspace 0x20 = true := by decide
  unfold joined
  simp only [bytes_space, List.mem_flatMap, List.mem_append, List.mem_singleton]
  constructor
  · rintro ⟨c, ⟨w, hw, hc | rfl⟩, hblank⟩
    · exact ⟨w, hw, c, hc, hblank⟩
    · rw [hspace] at hblank
      cases hblank
  · rintro ⟨w, hw, c, hc, hblank⟩
    exact ⟨c, ⟨w, hw, Or.inl hc⟩, hblank⟩

/-! ## What the program takes -/

/-- The arguments are flags that the program knows, and then words that are not all blank. -/
def WellFormed (args : List Text) : Prop :=
  (∀ f ∈ flagsOf args, KnownFlag f) ∧ (∀ w ∈ wordsOf args, ¬ Dashed w) ∧
    ∃ w ∈ wordsOf args, ∃ c ∈ w, isspace c = false

/-- The loop over well-formed arguments, and no other. -/
theorem foldlM_arguments_iff (args : List Text) (a' : Arguments) :
    args.foldlM readArgument .start = some a' ↔
      ((∀ f ∈ flagsOf args, KnownFlag f) ∧ ∀ w ∈ wordsOf args, ¬ Dashed w) ∧
      ∃ a, (flagsOf args).foldlM readArgument .start = some a ∧
        a' = { a with word := joined (wordsOf args) } := by
  conv_lhs => rw [← flags_append_words args, List.foldlM_append]
  constructor
  · intro h
    obtain ⟨a, ha, h⟩ := Option.bind_eq_some_iff.mp h
    have hknown := known_of_foldlM (fun f hf => dashed_of_mem_flagsOf hf) rfl ha
    have hwords := words_of_foldlM (Or.inr (head_wordsOf args)) h
    obtain ⟨a₁, h₁, hset⟩ := foldlM_flags hknown (rfl : Arguments.start.word = [])
    rw [ha, Option.some_inj] at h₁
    subst h₁
    rw [foldlM_words hwords, hset.word, Option.some_inj] at h
    exact ⟨⟨hknown, hwords⟩, a, ha, by simpa [Arguments.start] using h.symm⟩
  · rintro ⟨⟨hknown, hwords⟩, a, ha, rfl⟩
    obtain ⟨a₁, h₁, hset⟩ := foldlM_flags hknown (rfl : Arguments.start.word = [])
    rw [ha, Option.some_inj] at h₁
    subst h₁
    rw [ha]
    change (wordsOf args).foldlM readArgument a = _
    rw [foldlM_words hwords, hset.word]
    simp [Arguments.start]

/-- The program takes its arguments exactly when they are well formed, and prints its usage
otherwise. It then has each setting that a flag was given for and no other, the words to exclude,
and the phrase: the words in lower case, with spaces between them and none at the end. -/
theorem well_formed_arguments_are_taken_as_given (args : List Text) :
    ((parseArguments args).isSome ↔ WellFormed args) ∧
    ∀ a, parseArguments args = some a →
      a.word = lower (rtrim (joined (wordsOf args))) ∧ a.word ≠ [] ∧
      (a.big_dictionary = true ↔ Given (flagsOf args) 0x62) ∧
      (a.flags.allow_dupes = true ↔ Given (flagsOf args) 0x64) ∧
      (a.flags.print_subset = true ↔ Given (flagsOf args) 0x73) ∧
      (a.flags.output_directly = true ↔ Given (flagsOf args) 0x6f) ∧
      ∀ x, x ∈ a.excludeset ↔ Excluded args x := by
  have hblank : ∀ words, (lower (rtrim (joined words))).length = 0 ↔
      ¬ ∃ w ∈ words, ∃ c ∈ w, isspace c = false := fun words => by
    rw [← nonblank_joined, ← rtrim_ne_nil, not_not, lower, List.length_map,
      List.length_eq_zero_iff]
  have hparse : ∀ a, parseArguments args = some a ↔ WellFormed args ∧
      ∃ a₁, (flagsOf args).foldlM readArgument .start = some a₁ ∧
        a = { a₁ with word := lower (rtrim (joined (wordsOf args))) } := by
    intro a
    unfold parseArguments WellFormed
    constructor
    · intro h
      obtain ⟨a₂, ha₂, h⟩ := Option.bind_eq_some_iff.mp h
      obtain ⟨⟨hknown, hwords⟩, a₁, ha₁, rfl⟩ := (foldlM_arguments_iff args a₂).mp ha₂
      dsimp only at h
      split_ifs at h with hzero
      cases h
      exact ⟨⟨hknown, hwords, not_not.mp fun hn => hzero ((hblank _).mpr hn)⟩, a₁, ha₁, rfl⟩
    · rintro ⟨⟨hknown, hwords, hnonblank⟩, a₁, ha₁, rfl⟩
      have hall := (foldlM_arguments_iff args _).mpr ⟨⟨hknown, hwords⟩, a₁, ha₁, rfl⟩
      have hlength : ¬ (lower (rtrim (joined (wordsOf args)))).length = 0 := fun hzero =>
        (hblank _).mp hzero hnonblank
      rw [hall]
      change (if (lower (rtrim (joined (wordsOf args)))).length = 0 then none else some _) = _
      rw [if_neg hlength]
      rfl
  constructor
  · rw [Option.isSome_iff_exists]
    constructor
    · rintro ⟨a, ha⟩
      exact ((hparse a).mp ha).1
    · intro hwell
      obtain ⟨a₁, ha₁, -⟩ := foldlM_flags hwell.1 (rfl : Arguments.start.word = [])
      exact ⟨_, (hparse _).mpr ⟨hwell, a₁, ha₁, rfl⟩⟩
  · intro a ha
    obtain ⟨hwell, a₁, ha₁, rfl⟩ := (hparse a).mp ha
    obtain ⟨a₂, ha₂, hset⟩ := foldlM_flags hwell.1 (rfl : Arguments.start.word = [])
    rw [ha₁, Option.some_inj] at ha₂
    subst ha₂
    refine ⟨rfl, ?_, by simpa [Arguments.start] using hset.big,
      by simpa [Arguments.start] using hset.dupes, by simpa [Arguments.start] using hset.subset,
      by simpa [Arguments.start] using hset.direct, mem_excludeset ha⟩
    intro hnil
    exact (hblank _).mp (congrArg List.length hnil) hwell.2.2

end anagram
