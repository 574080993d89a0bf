-- A run of the program with its output queue, with -o or without it. With -o, what is
-- printed are the answers, one a line, and without it messages, while the map gets
-- the answers. The workers share the throttle of the messages without a lock. What is
-- not printed when the queue is destroyed is still in the ring, and a run can always
-- go on so that nothing is.
import Anagram.ProgramRuns
import Anagram.QueuedJobEnds

open outcome pruned_search delimited interleaving

namespace anagram

/-! ## The answers fit the slots -/

theorem card_letters_of_space_free {w : Text} (hfree : (0x20 : UInt8) ∉ w) :
    (letters w).card = w.length := by
  unfold letters
  rw [List.filter_eq_self.mpr fun c hc => by simpa using ne_of_mem_of_not_mem hc hfree]
  rfl

/-- A phrase has no more spaces than letters. -/
theorem length_phrase_le {ws : List Text} (hws : ∀ w ∈ ws, w ≠ [] ∧ (0x20 : UInt8) ∉ w) :
    (phrase ws).length ≤ 2 * (total letters ws).card := by
  induction ws using List.reverseRecOn with
  | nil => simp [phrase]
  | append_singleton ws k ih =>
    obtain ⟨hne, hfree⟩ := hws k (by simp)
    have hcard := card_letters_of_space_free hfree
    by_cases hnil : ws = []
    · subst hnil
      rw [List.nil_append, phrase_singleton, total_cons, total_nil, add_zero, hcard]
      omega
    · have hpos := List.length_pos_iff.mpr hne
      have hle := ih fun w hw => hws w (List.mem_append_left _ hw)
      rw [phrase_snoc hnil, bytes_space, total_append, total_cons, total_nil, add_zero,
        Multiset.card_add, hcard, List.length_append, List.length_append, List.length_singleton]
      omega

/-- Nor has it more words than letters. -/
theorem WordsAnswer.length_le {lines : List Text} {excluded : Text → Prop} {flags : AnagramFlags}
    {word : Text} {ws : List Text} (h : WordsAnswer lines excluded flags word ws)
    (hlines : Gatherable lines) : ws.length ≤ (letters word).card := by
  have hpartials : Partials word ws := fun w hw =>
    ⟨hlines.ne_nil_of_stored (h.stored w hw).1, hlines.space_free_stored (h.stored w hw).1,
      h.lt hlines hw⟩
  exact h.total_eq ▸ length_le_card hpartials fun w hw => hw

/-- The line of an answer has no NUL, and leaves room for one in a slot. -/
theorem Answer.fits {lines : List Text} (hlines : Gatherable lines) {excluded : Text → Prop}
    {flags : AnagramFlags} {word x : Text} (hb : InBounds word)
    (h : Answer lines excluded flags word x) : Ascii x ∧ x.length ≤ 254 := by
  have hcard := hb.card_le
  rcases h with ⟨hstored, -, hletters⟩ | ⟨ws, hws, rfl⟩
  · refine ⟨hlines.ascii_stored hstored, ?_⟩
    rw [← card_letters_of_space_free (hlines.space_free_stored hstored), hletters]
    omega
  · refine ⟨ascii_phrase fun w hw => hlines.ascii_stored (hws.stored w hw).1, ?_⟩
    have hle := length_phrase_le fun w hw =>
      ⟨hlines.ne_nil_of_stored (hws.stored w hw).1, hlines.space_free_stored (hws.stored w hw).1⟩
    rw [hws.total_eq] at hle
    omega

/-! ## The job of the program -/

/-- The rows of the subset, if they are asked for. -/
def rowsOf (flags : AnagramFlags) (keys : List Text) : List Text :=
  if flags.print_subset then subsetRows keys else []

/-- The rows have no NUL, as the keys have none. -/
theorem nul_not_mem_row {keys : List Text} (hkeys : ∀ key ∈ keys, Ascii key) {n : Nat} {out : Text}
    (hout : (0 : UInt8) ∉ out) : ∀ row ∈ rowsLoop keys n out, (0 : UInt8) ∉ row := by
  induction keys generalizing n out with
  | nil =>
    intro row hrow
    rw [List.mem_singleton.mp hrow, bytes_newlines]
    simp [hout]
  | cons key keys ih =>
    have hkey : (0 : UInt8) ∉ key := fun h =>
      absurd (hkeys key List.mem_cons_self 0 h).1 (by decide)
    have hrest : ∀ k ∈ keys, Ascii k := fun k hk => hkeys k (List.mem_cons_of_mem _ hk)
    rw [rowsLoop, bytes_newline, bytes_comma]
    split_ifs
    · refine List.forall_mem_cons.mpr ⟨?_, ih hrest (by simp)⟩
      simp [hout, hkey]
    · exact ih hrest (by simp [hout, hkey])

/-- What `main` does once it has its arguments, up to `RunJob`. The workers find the answers as they
are, and the flags decide what becomes of them. -/
def mainQueuedJob (columns : Text → Nat → Nat) (fuel : Nat) (env : Surroundings) (a : Arguments)
    (prior : OccupancyHash) : Run QueuedJob := do
  let job ← mainJob columns fuel env { a with flags := a.flags.toMap } prior
  .ok ⟨job, a.flags, rowsOf a.flags job.gathered⟩

theorem rows_of_mainQueuedJob {columns : Text → Nat → Nat} {fuel : Nat} {env : Surroundings}
    {a : Arguments} {prior : OccupancyHash} {Q : QueuedJob}
    (h : mainQueuedJob columns fuel env a prior = .ok Q) :
    Q.rows = rowsOf a.flags Q.job.gathered := by
  obtain ⟨job, -, h⟩ := bind_eq_ok.mp h
  cases h
  rfl

/-- The job has the answers to write, with the rows of its subset, and all its searches end. -/
structure Answering (env : Surroundings) (excluded : Text → Prop) (a : Arguments)
    (answers : List Text) (Q : QueuedJob) : Prop where
  thread_tot : Q.job.thread_tot = coreTot env.hardware_concurrency
  params_ok : Q.job.params_ok = env.params_ok
  handles_ok : Q.job.handles_ok = env.handles_ok
  create_error : Q.job.create_error = env.create_error
  found : ∀ i, (Q.job.found i Q.job.gathered).isOk = true
  ascii : ∀ key ∈ Q.job.gathered, Ascii key
  flags_eq : Q.flags = a.flags
  rows_eq : Q.rows = rowsOf a.flags Q.job.gathered
  inOrder : AnswersInOrder (dictionaryLines env a) excluded a.flags a.word answers
  writes_perm : Q.job.writes.Perm answers

section
variable {env : Surroundings} {excluded : Text → Prop} {a : Arguments} {answers : List Text}
  {Q : QueuedJob}

/-- What it gives to its workers can be pushed, if its rows are short. -/
theorem Answering.pushable (h : Answering env excluded a answers Q)
    (hdict : Gatherable (dictionaryLines env a)) (hb : InBounds a.word)
    (hshort : ∀ row ∈ Q.rows, ShortText row)
    (hfew : a.flags.output_directly = false → answers.length < 2 ^ 31) : Pushable Q where
  nodup := h.writes_perm.nodup_iff.mpr h.inOrder.nodup
  few hmap := h.writes_perm.length_eq ▸ hfew (h.flags_eq ▸ hmap)
  words x hx := by
    obtain ⟨hascii, hlength⟩ :=
      ((h.inOrder.mem_iff x).mp (h.writes_perm.mem_iff.mp hx)).fits hdict hb
    exact ⟨fun hnul => absurd (hascii 0 hnul).1 (by decide), hlength⟩
  rows row hrow := by
    refine ⟨?_, hshort row hrow⟩
    rw [h.rows_eq, rowsOf] at hrow
    split_ifs at hrow
    · exact nul_not_mem_row h.ascii (by simp) row hrow
    · cases hrow

/-- On eight cores, when no call fails, it can be brought to its end. -/
theorem Answering.smooth (h : Answering env excluded a answers Q)
    (hcores : coreTot env.hardware_concurrency = joinTot) (hparams : env.params_ok = true)
    (hhandles : env.handles_ok = true) (hcreate : ∀ i < joinTot, env.create_error i = false) :
    Smooth Q.job where
  thread_tot := h.thread_tot.trans hcores
  params_ok := h.params_ok.trans hparams
  handles_ok := h.handles_ok.trans hhandles
  created i hi := h.create_error ▸ hcreate i hi
  found i _ := h.found i

/-- The lines and rows that are due with -o. -/
theorem Answering.lines_perm (h : Answering env excluded a answers Q) :
    (Q.job.writes.map (· ++ bytes "\n") ++ Q.rows).Perm
      (answers.map (· ++ bytes "\n") ++ Q.rows) :=
  (h.writes_perm.map _).append_right _

variable (hexcluded : ∀ x, x ∈ a.excludeset ↔ excluded x)
  (hdict : Gatherable (dictionaryLines env a)) (hb : InBounds a.word) {fuel : Nat}
  (hfuel : dictionarySize env + 67 ≤ fuel) (columns : Text → Nat → Nat)
  {prior : OccupancyHash} (hprior : prior.Cleared)
include hexcluded hdict hb hfuel hprior

theorem mainQueuedJob_answering :
    ∃ Q answers, mainQueuedJob columns fuel env a prior = .ok Q ∧
      Answering env excluded a answers Q := by
  let b : Arguments := { a with flags := a.flags.toMap }
  obtain ⟨job, answers, hjob, htot, hparams, hhandles, hcreate, hfound, hascii, hanswers,
      hwrites⟩ :=
    mainJob_answers (a := b) hexcluded hdict hb hfuel columns hprior
  refine ⟨⟨job, a.flags, rowsOf a.flags job.gathered⟩, answers, ?_, htot, hparams, hhandles,
    hcreate, hfound, hascii, rfl, rfl, ⟨hanswers.ordered, fun x => ?_⟩, hwrites.perm rfl⟩
  · unfold mainQueuedJob
    rw [hjob, bind_ok]
  · rw [hanswers.mem_iff]
    constructor
    · refine fun hx => hx.congr (fun _ => Iff.rfl) (fun _ => Iff.rfl) ?_ rfl
      rfl
    · refine fun hx => hx.congr (fun _ => Iff.rfl) (fun _ => Iff.rfl) ?_ rfl
      rfl

end

/-! ## Every run of the program -/

/-- With -o, what is printed are lines of the answers and rows of the subset, none of them more
often than it is due, whatever the order of the steps of all threads. When `RunJob` has returned
from its end, on eight cores, and its queue is destroyed, what is not printed is still in the ring.
For more lines than the ring has room for, each write has to find room in it. -/
theorem with_o_each_line_is_printed_once_or_left_in_the_ring {args : List Text} {a : Arguments}
    (hargs : parseArguments args = some a) {env : Surroundings}
    (hdict : Gatherable (dictionaryLines env a)) (hb : InBounds a.word)
    (hdirect : a.flags.output_directly = true) {fuel : Nat}
    (hfuel : dictionarySize env + 67 ≤ fuel) (columns : Text → Nat → Nat) {prior : OccupancyHash}
    (hprior : prior.Cleared) :
    ∃ (Q : QueuedJob) (answers : List Text), mainQueuedJob columns fuel env a prior = .ok Q ∧
      AnswersInOrder (dictionaryLines env a) (Excluded args) a.flags a.word answers ∧
      ((∀ row ∈ Q.rows, ShortText row) →
        ∀ memory as s, Along (queuedStep Q) (Orderly Q) (.start memory) as →
          run (queuedStep Q) (.start memory) as = some s →
          s.queue.output.Subperm (answers.map (· ++ bytes "\n") ++ Q.rows) ∧
          (coreTot env.hardware_concurrency = joinTot →
            s.job.control.main = .returned true → s.queue.producers none = .joined →
            (s.queue.output ++ s.queue.pending.map (·.bytes)).Perm
              (answers.map (· ++ bytes "\n") ++ Q.rows))) := by
  obtain ⟨Q, answers, hjob, hQ⟩ :=
    mainQueuedJob_answering (mem_excludeset hargs) hdict hb hfuel columns hprior
  refine ⟨Q, answers, hjob, hQ.inOrder, fun hshort memory as s horder hrun => ?_⟩
  have hflags : Q.flags.output_directly = true := hQ.flags_eq ▸ hdirect
  have hok := queuedOk_run (hQ.pushable hdict hb hshort (by simp [hdirect])) horder hrun
  constructor
  · have hpushed := hok.clients.output_subperm.trans (hok.lines_subperm hflags)
    exact hpushed.trans hQ.lines_perm.subperm
  · intro hcores hret hjoined
    have htot := (hQ.thread_tot.trans hcores).le
    have hprinted := (hok.printed_perm hret htot hjoined).trans (hok.lines_perm hret htot hflags)
    exact hprinted.trans hQ.lines_perm

/-- The arguments of the runs below. -/
theorem arguments_o_b_a : ∃ a, parseArguments [bytes "-o", bytes "b", bytes "a"] = some a ∧
    a.word = bytes "b a" ∧ a.flags = ⟨false, true, false⟩ := exists_arguments (by decide +kernel)

theorem with_o_each_answer_of_b_a_is_printed_once_or_left_in_the_ring :
    ∃ a Q, ∃ answers : List Text, parseArguments [bytes "-o", bytes "b", bytes "a"] = some a ∧
      mainQueuedJob (fun _ _ => 7) 80 (abSurroundings (bytes "Ab\nb\na\n")) a .new = .ok Q ∧
      ∀ memory as s, Along (queuedStep Q) (Orderly Q) (.start memory) as →
        run (queuedStep Q) (.start memory) as = some s →
        s.queue.output.Subperm (answers.map (· ++ bytes "\n") ++ Q.rows) ∧
        (s.job.control.main = .returned true → s.queue.producers none = .joined →
          (s.queue.output ++ s.queue.pending.map (·.bytes)).Perm
            (answers.map (· ++ bytes "\n") ++ Q.rows)) := by
  obtain ⟨a, hargs, hword, hflags⟩ := arguments_o_b_a
  obtain ⟨Q, answers, hjob, -, hruns⟩ :=
    with_o_each_line_is_printed_once_or_left_in_the_ring hargs
      (gatherable_ab a (Or.inl rfl)) (hword ▸ .of_length_le (by decide +kernel) (by decide))
      (by rw [hflags]) (by decide : _ ≤ 80) (fun _ _ => 7) OccupancyHash.cleared_new
  have hrows : ∀ row ∈ Q.rows, ShortText row := by simp [rows_of_mainQueuedJob hjob, rowsOf, hflags]
  refine ⟨a, Q, answers, hargs, hjob, fun memory as s horder hrun => ?_⟩
  obtain ⟨hprinted, hend⟩ := hruns hrows memory as s horder hrun
  exact ⟨hprinted, hend (by decide)⟩

/-- Without -o, the map gets the answers and nothing else, whatever the order of the steps of all
threads, and what is printed meanwhile are rows of the subset and messages, no more than there are
rows and answers. The throttle stays in its range, whatever updates of it are lost. When `RunJob`
has returned from its end, on eight cores, the map has all answers. When its queue is destroyed
after that, there has been each row and a message for each answer of one word at least, printed or
left in the ring. -/
theorem without_o_the_map_gets_the_answers_and_messages_are_printed {args : List Text}
    {a : Arguments} (hargs : parseArguments args = some a) {env : Surroundings}
    (hdict : Gatherable (dictionaryLines env a)) (hb : InBounds a.word)
    (hmap : a.flags.output_directly = false) {fuel : Nat}
    (hfuel : dictionarySize env + 67 ≤ fuel) (columns : Text → Nat → Nat) {prior : OccupancyHash}
    (hprior : prior.Cleared) :
    ∃ (Q : QueuedJob) (answers : List Text), mainQueuedJob columns fuel env a prior = .ok Q ∧
      AnswersInOrder (dictionaryLines env a) (Excluded args) a.flags a.word answers ∧
      ((∀ row ∈ Q.rows, ShortText row) → answers.length < 2 ^ 31 →
        ∀ memory as s, Along (queuedStep Q) (Orderly Q) (.start memory) as →
          run (queuedStep Q) (.start memory) as = some s →
          (∀ x ∈ s.shared.world.anagrams, x ∈ answers) ∧
          (∀ text ∈ s.queue.output,
            text ∈ Q.rows ∨ ∃ k ≤ answers.length, text = foundMessage k) ∧
          s.queue.output.length ≤ answers.length + Q.rows.length ∧
          (100 : Int) - answers.length ≤ s.shared.world.output_queue_throttle ∧
          s.shared.world.output_queue_throttle ≤ 100 ∧
          (coreTot env.hardware_concurrency = joinTot → s.job.control.main = .returned true →
            (∀ x, x ∈ s.shared.world.anagrams ↔ x ∈ answers) ∧
            (s.queue.producers none = .joined →
              Q.job.singles.length + Q.rows.length ≤
                s.queue.output.length + s.queue.pending.length ∧
              s.queue.output.length + s.queue.pending.length ≤
                answers.length + Q.rows.length))) := by
  obtain ⟨Q, answers, hjob, hQ⟩ :=
    mainQueuedJob_answering (mem_excludeset hargs) hdict hb hfuel columns hprior
  refine ⟨Q, answers, hjob, hQ.inOrder, fun hshort hfew memory as s horder hrun => ?_⟩
  have hflags : Q.flags.output_directly = false := hQ.flags_eq ▸ hmap
  have hok := queuedOk_run (hQ.pushable hdict hb hshort fun _ => hfew) horder hrun
  have hmem : ∀ x, x ∈ Q.job.writes ↔ x ∈ answers := fun _ => hQ.writes_perm.mem_iff
  have hlength := hQ.writes_perm.length_eq
  have hpushes := hok.length_le
  obtain ⟨hge, hle⟩ := hok.throttle_mem hflags
  refine ⟨fun x hx => (hmem x).mp (hok.mem_writes hflags hx), fun text htext => ?_, ?_, ?_, hle,
    fun hcores hret => ⟨fun x => ?_, fun hjoined => ?_⟩⟩
  · rw [← hlength]
    exact hok.row_or_message hflags (hok.clients.output_subperm.subset htext)
  · exact hlength ▸ hok.clients.output_subperm.length_le.trans hpushes
  · exact hlength ▸ hge
  · rw [hok.mem_anagrams hret (hQ.thread_tot.trans hcores).le hflags, hmem]
  · have htot := (hQ.thread_tot.trans hcores).le
    have hall := (hok.printed_perm hret htot hjoined).length_eq
    have hfirst := hok.length_ge hret htot hflags
    rw [List.length_append, List.length_map] at hall
    omega

/-- Two letters have few answers. -/
theorem answers_of_b_a_length_lt {a : Arguments} {excluded : Text → Prop} {flags : AnagramFlags}
    {answers : List Text}
    (h : AnswersInOrder (dictionaryLines (abSurroundings (bytes "Ab\nb\na\n")) a) excluded flags
      (bytes "b a") answers) : answers.length < 2 ^ 31 := by
  let words := (lines 10 (bytes "Ab\nb\na\n")).map lower
  have hlines := gatherable_ab a (Or.inl (Eq.refl (bytes "Ab\nb\na\n")))
  have hmem : ∀ x, Stored (dictionaryLines (abSurroundings (bytes "Ab\nb\na\n")) a) x →
      x ∈ words := by
    rintro _ ⟨l, hl, rfl⟩
    rw [dictionaryLines_ab] at hl
    exact List.mem_map_of_mem hl
  have hsub : answers ⊆ words ++ (words ×ˢ words).map fun p => phrase [p.1, p.2] := by
    intro x hx
    rw [List.mem_append]
    rcases (h.mem_iff x).mp hx with ⟨hstored, -⟩ | ⟨ws, hws, rfl⟩
    · exact Or.inl (hmem x hstored)
    · have hle := hws.length_le hlines
      rw [show (letters (bytes "b a")).card = 2 by decide +kernel] at hle
      obtain ⟨u, v, rfl⟩ := List.length_eq_two.mp (le_antisymm hle hws.two_le)
      refine Or.inr (List.mem_map.mpr ⟨(u, v), List.mem_product.mpr ⟨?_, ?_⟩, rfl⟩)
      · exact hmem u (hws.stored u (by simp)).1
      · exact hmem v (hws.stored v (by simp)).1
  have hlength := (h.nodup.subperm hsub).length_le
  exact hlength.trans_lt (by decide +kernel)

theorem the_map_gets_the_answers_of_b_a :
    ∃ a Q, ∃ answers : List Text, parseArguments [bytes "b", bytes "a"] = some a ∧
      mainQueuedJob (fun _ _ => 7) 80 (abSurroundings (bytes "Ab\nb\na\n")) a .new = .ok Q ∧
      ∀ memory as s, Along (queuedStep Q) (Orderly Q) (.start memory) as →
        run (queuedStep Q) (.start memory) as = some s →
        (∀ x ∈ s.shared.world.anagrams, x ∈ answers) ∧
        (s.job.control.main = .returned true → ∀ x, x ∈ s.shared.world.anagrams ↔ x ∈ answers) := by
  obtain ⟨a, hargs, hword, hflags⟩ := arguments_b_a
  obtain ⟨Q, answers, hjob, hanswers, hruns⟩ :=
    without_o_the_map_gets_the_answers_and_messages_are_printed hargs
      (gatherable_ab a (Or.inl rfl)) (hword ▸ .of_length_le (by decide +kernel) (by decide))
      (by rw [hflags]) (by decide : _ ≤ 80) (fun _ _ => 7) OccupancyHash.cleared_new
  have hrows : ∀ row ∈ Q.rows, ShortText row := by simp [rows_of_mainQueuedJob hjob, rowsOf, hflags]
  rw [hword] at hanswers
  refine ⟨a, Q, answers, hargs, hjob, fun memory as s horder hrun => ?_⟩
  obtain ⟨hmem, -, -, -, -, hend⟩ :=
    hruns hrows (answers_of_b_a_length_lt hanswers) memory as s horder hrun
  exact ⟨hmem, fun hret => (hend (by decide) hret).1⟩

/-- The program does not hang. On eight cores and when no call fails, however the steps of all
threads have come so far, they can go on until `RunJob` has returned and its queue is destroyed
with an empty ring. With -o, each line is printed once then, and without it, the map has the
answers. -/
theorem the_program_can_go_on_until_nothing_is_left_in_the_ring {args : List Text} {a : Arguments}
    (hargs : parseArguments args = some a) {env : Surroundings}
    (hdict : Gatherable (dictionaryLines env a)) (hb : InBounds a.word)
    (hcores : coreTot env.hardware_concurrency = joinTot) (hparams : env.params_ok = true)
    (hhandles : env.handles_ok = true) (hcreate : ∀ i < joinTot, env.create_error i = false)
    {fuel : Nat} (hfuel : dictionarySize env + 67 ≤ fuel) (columns : Text → Nat → Nat)
    {prior : OccupancyHash} (hprior : prior.Cleared) :
    ∃ (Q : QueuedJob) (answers : List Text), mainQueuedJob columns fuel env a prior = .ok Q ∧
      AnswersInOrder (dictionaryLines env a) (Excluded args) a.flags a.word answers ∧
      ((∀ row ∈ Q.rows, ShortText row) →
        (a.flags.output_directly = false → answers.length < 2 ^ 31) →
        ∀ memory as s, Along (queuedStep Q) (Orderly Q) (.start memory) as →
          run (queuedStep Q) (.start memory) as = some s → s.queue.terminate_ = false →
          ∃ bs t, run (queuedStep Q) s bs = some t ∧ t.job.control.main = .returned true ∧
            t.queue.producers none = .joined ∧ t.queue.pending = [] ∧
            (a.flags.output_directly = true →
              t.queue.output.Perm (answers.map (· ++ bytes "\n") ++ Q.rows)) ∧
            (a.flags.output_directly = false →
              ∀ x, x ∈ t.shared.world.anagrams ↔ x ∈ answers)) := by
  obtain ⟨Q, answers, hjob, hQ⟩ :=
    mainQueuedJob_answering (mem_excludeset hargs) hdict hb hfuel columns hprior
  have hsmooth := hQ.smooth hcores hparams hhandles hcreate
  have htot := hsmooth.thread_tot.le
  refine ⟨Q, answers, hjob, hQ.inOrder, fun hshort hfew memory as s horder hrun hon => ?_⟩
  have hpushable := hQ.pushable hdict hb hshort hfew
  have hok := queuedOk_run hpushable horder hrun
  have hnot : NotFailed s.job := by
    obtain ⟨bs, hrun', hfirst⟩ := leads_job ⟨as, hrun, horder⟩
    exact (smooth_run hsmooth hfirst hrun').2
  obtain ⟨t, ⟨bs, hbs, -⟩, hok', hret, hjoined, hpending⟩ :=
    can_end hpushable hsmooth hok hnot hon
  refine ⟨bs, t, hbs, hret, hjoined, hpending, fun hdirect => ?_, fun hmap x => ?_⟩
  · have hprinted := hok'.printed_perm hret htot hjoined
    rw [hpending, List.map_nil, List.append_nil] at hprinted
    have hlines := hok'.lines_perm hret htot (hQ.flags_eq ▸ hdirect)
    exact (hprinted.trans hlines).trans hQ.lines_perm
  · rw [hok'.mem_anagrams hret htot (hQ.flags_eq ▸ hmap)]
    exact hQ.writes_perm.mem_iff

theorem the_queue_of_b_a_can_be_emptied :
    ∃ a Q, ∃ answers : List Text, parseArguments [bytes "-o", bytes "b", bytes "a"] = some a ∧
      mainQueuedJob (fun _ _ => 7) 80 (abSurroundings (bytes "Ab\nb\na\n")) a .new = .ok Q ∧
      ∃ bs t, run (queuedStep Q) (.start fun _ => 0) bs = some t ∧
        t.queue.output.Perm (answers.map (· ++ bytes "\n") ++ Q.rows) := by
  obtain ⟨a, hargs, hword, hflags⟩ := arguments_o_b_a
  obtain ⟨Q, answers, hjob, -, hruns⟩ :=
    the_program_can_go_on_until_nothing_is_left_in_the_ring hargs
      (gatherable_ab a (Or.inl rfl)) (hword ▸ .of_length_le (by decide +kernel) (by decide))
      (by decide) rfl rfl (fun _ _ => rfl) (by decide : _ ≤ 80) (fun _ _ => 7)
      OccupancyHash.cleared_new
  have hrows : ∀ row ∈ Q.rows, ShortText row := by simp [rows_of_mainQueuedJob hjob, rowsOf, hflags]
  obtain ⟨bs, t, hrun, -, -, -, hperm, -⟩ :=
    hruns hrows (by simp [hflags]) (fun _ => 0) [] _ trivial rfl rfl
  exact ⟨a, Q, answers, hargs, hjob, bs, t, hrun, hperm (by rw [hflags])⟩

end anagram
