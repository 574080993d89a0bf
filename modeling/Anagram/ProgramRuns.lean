-- A run of the program, from its arguments to its last line. It writes each
-- answer once and nothing else, whatever the order of the steps of its threads, as
-- long as worker 0 gathers first. It can always go on to its end, and what it prints
-- is the same for all inputs with the same letters, but for the header.
import Anagram.Answers
import Anagram.SearchJobEnds
import Anagram.ExcludeLaws

open outcome delimited interleaving

namespace anagram

/-! ## Every run of the program -/

/-- A log with which `RunJob` returns from its end, in a run in which worker 0 is the first to take
the gather lock. -/
def EndsWith (job : SearchJob) (log : List Text) : Prop :=
  ∃ as s, run (writeStep job) .start as = some s ∧ Along (writeStep job) TakesFirst .start as ∧
    s.control.main = .returned true ∧ s.log = log

/-- The answers, each once, in the order of the map. -/
structure AnswersInOrder (lines : List Text) (excluded : Text → Prop) (flags : AnagramFlags)
    (word : Text) (answers : List Text) : Prop where
  ordered : answers.Pairwise fun x y => compare x y = .lt
  mem_iff : ∀ x, x ∈ answers ↔ Answer lines excluded flags word x

/-- The log has each answer once, as the text that it is emitted as. -/
def LogsAnswers (flags : AnagramFlags) (answers log : List Text) : Prop :=
  log.Perm (answers.map (emittedText flags))

/-- Without -o, `main` prints the header, the answers in order, and their number. -/
def PrintsAnswers (verbosity : Nat) (a : Arguments) (answers log : List Text) : Prop :=
  a.flags.output_directly = false → lastOutput verbosity a (mapOf log) =
    headerLine verbosity a.word ++ foundLines verbosity answers ++ endLine verbosity

theorem AnswersInOrder.nodup {lines : List Text} {excluded : Text → Prop} {flags : AnagramFlags}
    {word : Text} {answers : List Text} (h : AnswersInOrder lines excluded flags word answers) :
    answers.Nodup := by
  refine h.ordered.imp ?_
  rintro x _ hlt rfl
  simp at hlt

/-- Any list of the answers can be put in order. -/
theorem exists_inOrder {lines : List Text} {excluded : Text → Prop} {flags : AnagramFlags}
    {word : Text} {texts : List Text} (hnodup : texts.Nodup)
    (hmem : ∀ x, x ∈ texts ↔ Answer lines excluded flags word x) :
    ∃ answers, AnswersInOrder lines excluded flags word answers ∧ texts.Perm answers := by
  have hkeys : ∀ x, x ∈ (mapOf texts).keys ↔ x ∈ texts := fun x => by
    rw [Std.TreeMap.mem_keys, mem_mapOf]
  refine ⟨(mapOf texts).keys, ⟨keys_pairwise _, fun x => (hkeys x).trans (hmem x)⟩, ?_⟩
  exact (List.perm_ext_iff_of_nodup hnodup Std.TreeMap.nodup_keys).mpr fun x => (hkeys x).symm

/-- Without -o, an answer is logged as it is. -/
theorem LogsAnswers.perm {flags : AnagramFlags} (hmap : flags.output_directly = false)
    {answers log : List Text} (h : LogsAnswers flags answers log) : log.Perm answers := by
  have hemitted : emittedText flags = id := funext fun x => by
    simp [emittedText, emission, hmap, Effect.text]
  unfold LogsAnswers at h
  rwa [hemitted, List.map_id] at h

/-- The map has the answers when the log has them. -/
theorem LogsAnswers.prints {lines : List Text} {excluded : Text → Prop} {a : Arguments}
    {answers log : List Text} (h : LogsAnswers a.flags answers log)
    (hanswers : AnswersInOrder lines excluded a.flags a.word answers) (verbosity : Nat) :
    PrintsAnswers verbosity a answers log := by
  intro hmap
  have hkeys : (mapOf log).keys = answers := by
    apply eq_of_ordered (keys_pairwise _) hanswers.ordered
    intro x
    rw [Std.TreeMap.mem_keys, mem_mapOf, (h.perm hmap).mem_iff]
  rw [lastOutput, if_neg (by simp [hmap]), hkeys]

/-- The job of the program has to write the answers. -/
theorem mainJob_answers {env : Surroundings} {a : Arguments} {excluded : Text → Prop}
    (hexcluded : ∀ x, x ∈ a.excludeset ↔ excluded x) (hdict : Gatherable (dictionaryLines env a))
    (hb : InBounds a.word) {fuel : Nat} (hfuel : dictionarySize env + 67 ≤ fuel)
    (columns : Text → Nat → Nat) {prior : OccupancyHash} (hprior : prior.Cleared) :
    ∃ (job : SearchJob) (answers : List Text), mainJob columns fuel env a prior = .ok job ∧
      job.thread_tot = coreTot env.hardware_concurrency ∧ job.params_ok = env.params_ok ∧
      job.handles_ok = env.handles_ok ∧ job.create_error = env.create_error ∧
      (∀ i, (job.found i job.gathered).isOk = true) ∧ (∀ key ∈ job.gathered, Ascii key) ∧
      AnswersInOrder (dictionaryLines env a) excluded a.flags a.word answers ∧
      LogsAnswers a.flags answers job.writes := by
  obtain ⟨T, hload, t, words, hbuilt, hstored, hsize⟩ :=
    loadDictionaries_holding (a := a) hdict.plain (by omega : dictionarySize env < fuel)
  obtain ⟨job, texts, hjob, htot, hparams, hhandles, hcreate, hfound, hascii, hwrites, hnodup,
      hmem⟩ :=
    programJob_writes hbuilt (hdict.congr hstored) columns
      (by omega : (words.map List.length).sum + 67 ≤ fuel) env hb hprior
  have hmem' : ∀ x, x ∈ texts ↔ Answer (dictionaryLines env a) excluded a.flags a.word x := by
    intro x
    rw [hmem]
    constructor
    · exact Answer.congr hstored hexcluded rfl rfl
    · exact Answer.congr (fun y => (hstored y).symm) (fun y => (hexcluded y).symm) rfl rfl
  obtain ⟨answers, hanswers, hperm⟩ := exists_inOrder hnodup hmem'
  refine ⟨job, answers, ?_, htot, hparams, hhandles, hcreate, hfound, hascii, hanswers, ?_⟩
  · rw [mainJob, hload, bind_ok]
    exact hjob
  · rw [LogsAnswers, hwrites]
    exact hperm.map _

/-- When it returns on eight cores, the log has the answers. -/
theorem LogsAnswers.of_ends {flags : AnagramFlags} {answers log : List Text} {job : SearchJob}
    (h : LogsAnswers flags answers job.writes) (htot : job.thread_tot = joinTot)
    (hends : EndsWith job log) : LogsAnswers flags answers log := by
  obtain ⟨as, s, hrun, hfirst, hret, rfl⟩ := hends
  exact ((writeOk_run hfirst hrun).returned htot.le hret).2.trans h

/-- A run of the program on eight cores writes each answer once, and nothing else, whatever the
order of the steps of its threads: the words of the dictionaries with the letters of the input,
and the phrases of two or more words in order that have them together, without the excluded words.
Without -o, what is printed at the end are the header, the answers in order, and their number. -/
theorem a_run_of_the_program_writes_each_answer_once {args : List Text} {a : Arguments}
    (hargs : parseArguments args = some a) {env : Surroundings}
    (hdict : Gatherable (dictionaryLines env a)) (hb : InBounds a.word)
    (hcores : coreTot env.hardware_concurrency = joinTot) {fuel : Nat}
    (hfuel : dictionarySize env + 67 ≤ fuel) (columns : Text → Nat → Nat) {prior : OccupancyHash}
    (hprior : prior.Cleared) :
    ∃ job answers, mainJob columns fuel env a prior = .ok job ∧
      AnswersInOrder (dictionaryLines env a) (Excluded args) a.flags a.word answers ∧
      ∀ log, EndsWith job log → LogsAnswers a.flags answers log ∧
        PrintsAnswers (verbosityOf args) a answers log := by
  obtain ⟨job, answers, hjob, htot, -, -, -, -, -, hanswers, hwrites⟩ :=
    mainJob_answers (mem_excludeset hargs) hdict hb hfuel columns hprior
  refine ⟨job, answers, hjob, hanswers, fun log hends => ?_⟩
  have hlogs := hwrites.of_ends (htot.trans hcores) hends
  exact ⟨hlogs, hlogs.prints hanswers _⟩

/-- Eight cores and a dictionary of three words. -/
def abSurroundings (content : Text) : Surroundings :=
  ⟨some content, none, 8, true, true, fun _ => false⟩

theorem dictionaryLines_ab (content : Text) (a : Arguments) :
    dictionaryLines (abSurroundings content) a = lines 10 content := by
  simp [dictionaryLines, abSurroundings]

theorem gatherable_ab (a : Arguments) {content : Text}
    (h : content = bytes "Ab\nb\na\n" ∨ content = bytes "a\nAB\nB") :
    Gatherable (dictionaryLines (abSurroundings content) a) := by
  rw [dictionaryLines_ab]
  rcases h with rfl | rfl
  · exact gatherable_of_short _ (by decide +kernel) (by decide +kernel)
  · exact gatherable_of_short _ (by decide +kernel) (by decide +kernel)

/-- The arguments give an input and the flags. -/
theorem exists_arguments {args : List Text} {word : Text} {flags : AnagramFlags}
    (h : (parseArguments args).map (fun a => (a.word, a.flags)) = some (word, flags)) :
    ∃ a, parseArguments args = some a ∧ a.word = word ∧ a.flags = flags := by
  obtain ⟨a, ha, hpair⟩ := Option.map_eq_some_iff.mp h
  exact ⟨a, ha, congrArg Prod.fst hpair, congrArg Prod.snd hpair⟩

theorem not_excluded_of_no_dash (args : List Text) (h : ∀ arg ∈ args, arg.head? ≠ some 0x2d)
    (x : Text) : ¬ Excluded args x := by
  rintro ⟨e, he, -⟩
  exact h _ he rfl

theorem arguments_b_a : ∃ a, parseArguments [bytes "b", bytes "a"] = some a ∧
    a.word = bytes "b a" ∧ a.flags = ⟨false, false, false⟩ := exists_arguments (by decide +kernel)

theorem arguments_BA : ∃ a, parseArguments [bytes "BA"] = some a ∧ a.word = bytes "ba" ∧
    a.flags = ⟨false, false, false⟩ := exists_arguments (by decide +kernel)

theorem the_answers_of_b_a_are_written_once :
    ∃ a job, ∃ answers : List Text, parseArguments [bytes "b", bytes "a"] = some a ∧
      mainJob (fun _ _ => 7) 80 (abSurroundings (bytes "Ab\nb\na\n")) a .new = .ok job ∧
      ∀ log, EndsWith job log → LogsAnswers a.flags answers log ∧
        PrintsAnswers 1 a answers log := by
  obtain ⟨a, hargs, hword, hflags⟩ := arguments_b_a
  obtain ⟨job, answers, hjob, -, hlog⟩ := a_run_of_the_program_writes_each_answer_once hargs
    (gatherable_ab a (Or.inl rfl)) (hword ▸ .of_length_le (by decide +kernel) (by decide))
    (by decide) (by decide : _ ≤ 80) (fun _ _ => 7) OccupancyHash.cleared_new
  exact ⟨a, job, answers, hargs, hjob, hlog⟩

/-- The program does not hang. On eight cores and when no call fails, however the steps of its
threads have come so far, they are no more than there are words to gather and texts to write, and
some steps for each thread. They can be continued until `RunJob` returns, and then the log has the
answers, and `main` prints them. -/
theorem the_program_can_go_on_to_print_the_answers {args : List Text} {a : Arguments}
    (hargs : parseArguments args = some a) {env : Surroundings}
    (hdict : Gatherable (dictionaryLines env a)) (hb : InBounds a.word)
    (hcores : coreTot env.hardware_concurrency = joinTot) (hparams : env.params_ok = true)
    (hhandles : env.handles_ok = true) (hcreate : ∀ i < joinTot, env.create_error i = false)
    {fuel : Nat} (hfuel : dictionarySize env + 67 ≤ fuel) (columns : Text → Nat → Nat)
    {prior : OccupancyHash} (hprior : prior.Cleared) :
    ∃ job answers, mainJob columns fuel env a prior = .ok job ∧
      AnswersInOrder (dictionaryLines env a) (Excluded args) a.flags a.word answers ∧
      ∀ as s, Along (writeStep job) TakesFirst .start as →
        run (writeStep job) .start as = some s →
        as.length ≤ 7 * joinTot + 12 + job.gathered.length + answers.length ∧
        ∃ bs t, run (writeStep job) s bs = some t ∧ Along (writeStep job) TakesFirst s bs ∧
          t.control.main = .returned true ∧ LogsAnswers a.flags answers t.log ∧
          PrintsAnswers (verbosityOf args) a answers t.log := by
  obtain ⟨job, answers, hjob, htot, hparams', hhandles', hcreate', hfound, -, hanswers, hwrites⟩ :=
    mainJob_answers (mem_excludeset hargs) hdict hb hfuel columns hprior
  have hsmooth : Smooth job := ⟨htot.trans hcores, hparams'.trans hparams,
    hhandles'.trans hhandles, fun i hi => hcreate' ▸ hcreate i hi, fun i _ => hfound i⟩
  refine ⟨job, answers, hjob, hanswers, fun as s hfirst hrun => ?_⟩
  have hlength := length_le_of_run hsmooth hfirst hrun
  rw [hsmooth.thread_tot, List.Perm.length_eq hwrites, List.length_map] at hlength
  obtain ⟨bs, t, hrun', hfirst', hret⟩ := can_return hsmooth (smooth_run hsmooth hfirst hrun)
  have hends : EndsWith job t.log :=
    ⟨as ++ bs, t, (run_append hrun).trans hrun', hfirst.append hrun hfirst', hret, rfl⟩
  have hlogs := hwrites.of_ends hsmooth.thread_tot hends
  exact ⟨hlength, bs, t, hrun', hfirst', hret, hlogs, hlogs.prints hanswers _⟩

theorem the_answers_of_b_a_can_be_printed :
    ∃ a job, ∃ answers : List Text, parseArguments [bytes "b", bytes "a"] = some a ∧
      mainJob (fun _ _ => 7) 80 (abSurroundings (bytes "Ab\nb\na\n")) a .new = .ok job ∧
      ∃ as t, run (writeStep job) .start as = some t ∧ PrintsAnswers 1 a answers t.log := by
  obtain ⟨a, hargs, hword, hflags⟩ := arguments_b_a
  obtain ⟨job, answers, hjob, -, hruns⟩ := the_program_can_go_on_to_print_the_answers hargs
    (gatherable_ab a (Or.inl rfl)) (hword ▸ .of_length_le (by decide +kernel) (by decide))
    (by decide) rfl rfl (fun _ _ => rfl) (by decide : _ ≤ 80) (fun _ _ => 7)
    OccupancyHash.cleared_new
  obtain ⟨-, bs, t, hrun, -, -, -, hprinted⟩ := hruns [] .start trivial rfl
  exact ⟨a, job, answers, hargs, hjob, bs, t, hrun, hprinted⟩

/-- What is written and printed does not depend on how the input is written. Two runs on eight
cores write the same texts when their inputs have the same letters and their dictionaries the same
words in whatever order and letter case, with the same excluded words and the same settings of -d
and -o: whatever the chances of the columns and the order of the steps. Without -o, what they print
at the end differs in the header alone. -/
theorem inputs_with_the_same_letters_differ_in_the_header {args args' : List Text}
    {a a' : Arguments} (hargs : parseArguments args = some a)
    (hargs' : parseArguments args' = some a')
    {env env' : Surroundings} (hdict : Gatherable (dictionaryLines env a))
    (hwords : ∀ x, Stored (dictionaryLines env a) x ↔ Stored (dictionaryLines env' a') x)
    (hb : InBounds a.word) (hascii : Ascii a'.word) (hletters : letters a.word = letters a'.word)
    (hexcluded : ∀ x, Excluded args x ↔ Excluded args' x)
    (hdupes : a.flags.allow_dupes = a'.flags.allow_dupes)
    (hdirect : a.flags.output_directly = a'.flags.output_directly)
    (hcores : coreTot env.hardware_concurrency = joinTot)
    (hcores' : coreTot env'.hardware_concurrency = joinTot) {fuel fuel' : Nat}
    (hfuel : dictionarySize env + 67 ≤ fuel) (hfuel' : dictionarySize env' + 67 ≤ fuel')
    (columns columns' : Text → Nat → Nat) {prior prior' : OccupancyHash} (hprior : prior.Cleared)
    (hprior' : prior'.Cleared) :
    ∃ job job', mainJob columns fuel env a prior = .ok job ∧
      mainJob columns' fuel' env' a' prior' = .ok job' ∧
      ∀ log log', EndsWith job log → EndsWith job' log' → log.Perm log' ∧
        (a.flags.output_directly = false → ∀ verbosity, ∃ rest,
          lastOutput verbosity a (mapOf log) = headerLine verbosity a.word ++ rest ∧
          lastOutput verbosity a' (mapOf log') = headerLine verbosity a'.word ++ rest) := by
  have hdict' : Gatherable (dictionaryLines env' a') := hdict.congr fun x => (hwords x).symm
  have hb' : InBounds a'.word :=
    ⟨hascii, hletters ▸ hb.card_le, hletters ▸ hb.distinct_le, hletters ▸ hb.count_le⟩
  obtain ⟨job, answers, hjob, htot, -, -, -, -, -, hanswers, hwrites⟩ :=
    mainJob_answers (mem_excludeset hargs) hdict hb hfuel columns hprior
  obtain ⟨job', answers', hjob', htot', -, -, -, -, -, hanswers', hwrites'⟩ :=
    mainJob_answers (mem_excludeset hargs') hdict' hb' hfuel' columns' hprior'
  obtain rfl : answers = answers' := by
    apply eq_of_ordered hanswers.ordered hanswers'.ordered
    intro x
    rw [hanswers.mem_iff, hanswers'.mem_iff]
    constructor
    · exact Answer.congr hwords hexcluded hdupes hletters
    · exact Answer.congr (fun y => (hwords y).symm) (fun y => (hexcluded y).symm) hdupes.symm
        hletters.symm
  have htexts : emittedText a.flags = emittedText a'.flags := funext fun x => by
    simp only [emittedText, emission, hdirect]
  refine ⟨job, job', hjob, hjob', fun log log' hends hends' => ?_⟩
  have hlogs := hwrites.of_ends (htot.trans hcores) hends
  have hlogs' := hwrites'.of_ends (htot'.trans hcores') hends'
  refine ⟨hlogs.trans (htexts ▸ hlogs'.symm), fun hmap verbosity =>
    ⟨foundLines verbosity answers ++ endLine verbosity, ?_, ?_⟩⟩
  · rw [hlogs.prints hanswers verbosity hmap, List.append_assoc]
  · rw [hlogs'.prints hanswers' verbosity (hdirect ▸ hmap), List.append_assoc]

theorem b_a_and_BA_differ_in_the_header :
    ∃ a a' job job', parseArguments [bytes "b", bytes "a"] = some a ∧
      parseArguments [bytes "BA"] = some a' ∧
      mainJob (fun _ _ => 7) 80 (abSurroundings (bytes "Ab\nb\na\n")) a .new = .ok job ∧
      mainJob (fun _ _ => 3) 80 (abSurroundings (bytes "a\nAB\nB")) a' .new = .ok job' ∧
      ∀ log log', EndsWith job log → EndsWith job' log' → log.Perm log' ∧
        ∃ rest, lastOutput 1 a (mapOf log) = headerLine 1 (bytes "b a") ++ rest ∧
          lastOutput 1 a' (mapOf log') = headerLine 1 (bytes "ba") ++ rest := by
  obtain ⟨a, hargs, hword, hflags⟩ := arguments_b_a
  obtain ⟨a', hargs', hword', hflags'⟩ := arguments_BA
  have hstored : ∀ x, Stored (dictionaryLines (abSurroundings (bytes "Ab\nb\na\n")) a) x ↔
      Stored (dictionaryLines (abSurroundings (bytes "a\nAB\nB")) a') x := by
    intro x
    have hperm : ((lines 10 (bytes "Ab\nb\na\n")).map lower).Perm
        ((lines 10 (bytes "a\nAB\nB")).map lower) := by decide +kernel
    have hmem := hperm.mem_iff (a := x)
    rw [dictionaryLines_ab, dictionaryLines_ab]
    simpa only [Stored, List.mem_map, eq_comm] using hmem
  have hexcluded : ∀ x, Excluded [bytes "b", bytes "a"] x ↔ Excluded [bytes "BA"] x := by
    intro x
    have hnot := not_excluded_of_no_dash [bytes "b", bytes "a"] (by decide +kernel) x
    have hnot' := not_excluded_of_no_dash [bytes "BA"] (by decide +kernel) x
    exact iff_of_false hnot hnot'
  have hb : InBounds (bytes "b a") := .of_length_le (by decide +kernel) (by decide)
  obtain ⟨job, job', hjob, hjob', hsame⟩ := inputs_with_the_same_letters_differ_in_the_header hargs
    hargs' (gatherable_ab a (Or.inl rfl)) hstored (hword ▸ hb) (hword' ▸ by decide +kernel)
    (by rw [hword, hword']; decide +kernel) hexcluded (by rw [hflags, hflags'])
    (by rw [hflags, hflags']) (by decide) (by decide) (by decide : _ ≤ 80) (by decide : _ ≤ 80)
    (fun _ _ => 7) (fun _ _ => 3) OccupancyHash.cleared_new OccupancyHash.cleared_new
  refine ⟨a, a', job, job', hargs, hargs', hjob, hjob', fun log log' hends hends' => ?_⟩
  obtain ⟨hperm, hprinted⟩ := hsame log log' hends hends'
  rw [hword, hword'] at hprinted
  exact ⟨hperm, hprinted (by rw [hflags]) 1⟩

end anagram
