-- The laws of the dictionary loader. Whatever the file, the two phases together
-- go through each of its lines once, so the trie gains exactly its words. A word
-- that the first phase passes over is there already.
import Anagram.DictionaryFile
import Anagram.TrieBytes
import Anagram.General.Lines

open search_trie outcome delimited

namespace anagram

/-! ## The stream -/

/-- The stream will give these lines, and then fail. -/
structure Ahead (file : Stream) (ls : List Text) : Prop where
  fail_eq : file.failbit = false
  lines_eq : lines 10 file.rest = ls
  eof : file.eofbit = true → file.rest = []

theorem ahead_opened (content : Text) : Ahead (Stream.opened content) (lines 10 content) :=
  ⟨rfl, rfl, fun h => by cases h⟩

/-- `getline` takes the next line. -/
theorem getline_line {file : Stream} {l : Text} {ls : List Text} (h : Ahead file (l :: ls))
    (line : Text) : ∃ file', file.getline line = (file', l) ∧ Ahead file' ls ∧
      file'.content = file.content := by
  have hne : file.rest ≠ [] := by
    intro hnil
    have hlines := h.lines_eq
    rw [hnil] at hlines
    cases hlines
  have hgood : (file.eofbit || file.failbit) = false := by
    rw [h.fail_eq, Bool.or_false, Bool.eq_false_iff]
    exact fun heof => hne (h.eof heof)
  obtain ⟨hl, hls⟩ := List.cons.inj ((lines_of_ne_nil 10 hne).symm.trans h.lines_eq)
  unfold Stream.getline
  rw [if_neg (by simp [hgood]), hl]
  rw [Bool.or_eq_false_iff] at hgood
  cases hdrop : file.rest.dropWhile (· ≠ 10) with
  | nil =>
    -- the end of the file ends the line
    rw [hdrop] at hls
    have hl' : l ≠ [] := by
      rintro rfl
      have hall := @List.takeWhile_append_dropWhile _ (· ≠ 10) file.rest
      rw [hl, hdrop] at hall
      exact hne hall.symm
    refine ⟨{ file with rest := [], eofbit := true, failbit := l.isEmpty }, rfl,
      ⟨by simpa using hl', hls, fun _ => rfl⟩, rfl⟩
  | cons c rest =>
    rw [hdrop] at hls
    refine ⟨{ file with rest }, rfl, ⟨h.fail_eq, hls, fun heof => ?_⟩, rfl⟩
    exact absurd heof (by simp [hgood.1])

/-- After the last line, `getline` fails. -/
theorem getline_end {file : Stream} (h : Ahead file []) (line : Text) :
    (file.getline line).1.failbit = true ∧ (file.getline line).1.content = file.content := by
  have hnil : file.rest = [] := lines_eq_nil.mp h.lines_eq
  unfold Stream.getline
  split_ifs
  · exact ⟨rfl, rfl⟩
  · rw [hnil]
    exact ⟨rfl, rfl⟩

/-! ## The loops -/

theorem skipLoop_lines (done : List Text) {file : Stream} {ls : List Text}
    (h : Ahead file (done ++ ls)) (line : Text) :
    ∃ file' line', skipLoop done.length (file, line) = (file', line') ∧ Ahead file' ls ∧
      file'.content = file.content := by
  induction done generalizing file line with
  | nil => exact ⟨file, line, rfl, h, rfl⟩
  | cons l done ih =>
    obtain ⟨file₁, hget, hahead, hcontent⟩ := getline_line h line
    obtain ⟨file', line', hrun, hls, hcontent'⟩ := ih hahead l
    refine ⟨file', line', ?_, hls, hcontent'.trans hcontent⟩
    rw [List.length_cons, skipLoop, hget]
    exact hrun

/-- The first phase handles the lines that are left. -/
theorem phase1_lines (fuel : Nat) (ls : List Text) {n : Nat} (hn : ls.length < n) {file : Stream}
    (h : Ahead file ls) (line : Text) :
    ∃ file' line', file'.content = file.content ∧ ∀ trie, phase1 fuel n file line trie =
      (do let trie ← ls.foldlM (insertNew fuel) trie; .ok (file', line', trie)) := by
  induction ls generalizing n file line with
  | nil =>
    cases n with
    | zero => exact absurd hn (Nat.not_lt_zero _)
    | succ n =>
      obtain ⟨hfail, hcontent⟩ := getline_end h line
      refine ⟨(file.getline line).1, (file.getline line).2, hcontent, fun trie => ?_⟩
      rw [phase1]
      simp only [hfail, if_true]
      rfl
  | cons l ls ih =>
    cases n with
    | zero => exact absurd hn (Nat.not_lt_zero _)
    | succ n =>
      obtain ⟨file₁, hget, hahead, hcontent⟩ := getline_line h line
      obtain ⟨file', line', hcontent', hrun⟩ := ih (Nat.lt_of_succ_lt_succ hn) hahead l
      refine ⟨file', line', hcontent'.trans hcontent, fun trie => ?_⟩
      rw [phase1, hget, List.foldlM_cons]
      simp only [hahead.fail_eq, Bool.false_eq_true, if_false, hrun]
      cases insertNew fuel trie l with
      | error e => rfl
      | ok trie' => rfl

/-- The second phase handles as many lines as it is told. -/
theorem phase2_lines (fuel : Nat) (done : List Text) {file : Stream} {ls : List Text}
    (h : Ahead file (done ++ ls)) (line : Text) (trie : Trie) :
    phase2 fuel done.length file line trie = done.foldlM (Trie.insertWord fuel) trie := by
  induction done generalizing file line trie with
  | nil => rfl
  | cons l done ih =>
    obtain ⟨file₁, hget, hahead, -⟩ := getline_line h line
    rw [List.length_cons, phase2, hget, List.foldlM_cons]
    dsimp only
    congr 1
    funext trie'
    exact ih hahead l trie'

/-- What `GetWordCount` counts. -/
def wordCount (content : Text) : Int := (content.count 10 : Int).bmod (2 ^ 32)

/-- The line that the first phase starts at: the middle one, unless the count of the lines is too
large for an `int`. -/
def startLine (content : Text) : Nat := (wordCount content >>> (1 : Nat)).toNat

/-- `GetWordCount` leaves the stream at the start of the file. -/
theorem getWordCount_opened (content : Text) :
    getWordCount (Stream.opened content) = (wordCount content, Stream.opened content) := by
  unfold getWordCount wordCount Stream.opened Stream.seekg
  simp only [Bool.false_eq_true, if_false]

theorem startLine_le (content : Text) : startLine content ≤ (lines 10 content).length := by
  have hcount := count_le_length_lines 10 content
  have hbmod := Int.bmod_def (content.count 10 : Int) (2 ^ 32)
  unfold startLine wordCount
  rw [Int.shiftRight_eq_div_pow]
  split_ifs at hbmod <;> omega

/-- The two phases go through the lines from `start` on, and then through those before. -/
theorem readPhases_eq {fuel start : Nat} {content : Text}
    (hle : start ≤ (lines 10 content).length) (hfuel : content.length < fuel) :
    ∃ before after, lines 10 content = before ++ after ∧ ∀ trie,
      readPhases fuel start (Stream.opened content) trie = (do
        let trie ← after.foldlM (insertNew fuel) trie
        before.foldlM (Trie.insertWord fuel) trie) := by
  obtain ⟨before, after, hall, hlen⟩ :
      ∃ before after, lines 10 content = before ++ after ∧ before.length = start := by
    refine ⟨_, _, (List.take_append_drop start _).symm, ?_⟩
    rw [List.length_take, Nat.min_eq_left hle]
  have hlines := length_lines_le 10 content
  rw [hall, List.length_append] at hlines
  have hahead : Ahead (Stream.opened content) (before ++ after) := hall ▸ ahead_opened content
  obtain ⟨file₁, line₁, hskip, hahead₁, hcontent₁⟩ := skipLoop_lines before hahead []
  obtain ⟨file₂, line₂, hcontent₂, hphase₁⟩ :=
    phase1_lines fuel after (by omega : after.length < fuel) hahead₁ line₁
  have hback : file₂.clear.seekg = Stream.opened content := by
    unfold Stream.clear Stream.seekg Stream.opened
    simp only [Bool.false_eq_true, if_false, hcontent₂, hcontent₁]
    rfl
  have hphase₂ := fun trie => phase2_lines fuel before hahead line₂ trie
  rw [hlen] at hskip hphase₂
  refine ⟨before, after, hall, fun trie => ?_⟩
  unfold readPhases
  rw [hskip]
  dsimp only
  rw [hphase₁]
  cases after.foldlM (insertNew fuel) trie with
  | error e => rfl
  | ok trie' =>
    simp only [bind_ok]
    rw [hback]
    exact hphase₂ trie'

/-- The loader handles each line of the file once, in one of the two ways. -/
theorem readDictionaryFile_eq {fuel : Nat} {content : Text} (hfuel : content.length < fuel) :
    ∃ before after, lines 10 content = before ++ after ∧ ∀ trie,
      readDictionaryFile fuel content trie = (do
        let trie ← after.foldlM (insertNew fuel) trie
        before.foldlM (Trie.insertWord fuel) trie) := by
  obtain ⟨before, after, hall, hrun⟩ := readPhases_eq (startLine_le content) hfuel
  refine ⟨before, after, hall, fun trie => ?_⟩
  unfold readDictionaryFile
  rw [getWordCount_opened]
  exact hrun trie

/-! ## The words of the trie -/

/-- The trie has been built, by whatever inserts, of the words in `S`, in at most `n` bytes. -/
def Holding (T : Trie) (S : Text → Prop) (n : Nat) : Prop :=
  ∃ t words, Built T t words ∧ (∀ x, Stored words x ↔ S x) ∧ (words.map List.length).sum ≤ n

theorem stored_append (us vs : List Text) (x : Text) :
    Stored (us ++ vs) x ↔ Stored us x ∨ Stored vs x := by
  simp only [Stored, List.mem_append, or_and_right, exists_or]

theorem Holding.of_iff {T : Trie} {S S' : Text → Prop} {n n' : Nat} (h : Holding T S n)
    (hS : ∀ x, S x ↔ S' x) (hn : n ≤ n') : Holding T S' n' := by
  obtain ⟨t, words, hbuilt, hwords, hsize⟩ := h
  exact ⟨t, words, hbuilt, fun x => (hwords x).trans (hS x), hsize.trans hn⟩

theorem insertWord_holding {T : Trie} {S : Text → Prop} {n fuel : Nat} (h : Holding T S n)
    {w : Text} (hw : Storable w) (hfuel : n + w.length < fuel) :
    ∃ T', Trie.insertWord fuel T w = .ok T' ∧
      Holding T' (fun x => S x ∨ x = lower w) (n + w.length) := by
  obtain ⟨t, words, hbuilt, hwords, hsize⟩ := h
  obtain ⟨hne, hbytes⟩ := hw
  cases w with
  | nil => exact absurd rfl hne
  | cons c rest =>
    simp only [List.length_cons] at hfuel
    obtain ⟨b, T', hcall, -, hbuilt'⟩ := hbuilt.insert hbytes fuel (by omega)
    refine ⟨T', ?_, _, _, hbuilt', fun x => ?_, ?_⟩
    · unfold Trie.insertWord
      rw [c_str, hcall]
      rfl
    · simp only [Stored, List.mem_append, List.mem_singleton, ← hwords]
      constructor
      · rintro ⟨v, hv | rfl, rfl⟩
        · exact Or.inl ⟨v, hv, rfl⟩
        · exact Or.inr rfl
      · rintro (⟨v, hv, rfl⟩ | rfl)
        · exact ⟨v, Or.inl hv, rfl⟩
        · exact ⟨c :: rest, Or.inr rfl, rfl⟩
    · simpa using hsize

/-- A word that is looked up first is in the trie after it either way. -/
theorem insertNew_holding {T : Trie} {S : Text → Prop} {n fuel : Nat} (h : Holding T S n)
    {w : Text} (hw : Plain w) (hfuel : n + w.length < fuel) :
    ∃ T', insertNew fuel T w = .ok T' ∧
      Holding T' (fun x => S x ∨ x = lower w) (n + w.length) := by
  have hinserted := insertWord_holding h hw.storable hfuel
  obtain ⟨t, words, hbuilt, hwords, hsize⟩ := h
  have hlower := ascii_lower hw.2
  cases w with
  | nil => exact absurd rfl hw.1
  | cons c rest =>
    have hnodes := hbuilt.size
    have hfind := find_refines hbuilt.rep hlower (hnodes.trans_lt (by omega : _ < fuel))
    rw [← hbuilt.root] at hfind
    have hlook : T.find fuel (c_str ((c :: rest).map tolower)) T.root = _ := hfind
    unfold insertNew
    dsimp only
    rw [hlook, bind_ok]
    dsimp only
    split_ifs with hfound
    · -- it was found, so nothing is new
      refine ⟨T, rfl, t, words, hbuilt, fun x => ?_, hsize.trans (Nat.le_add_right _ _)⟩
      rw [hwords]
      have hold : S (lower (c :: rest)) := (hwords _).mp ((hbuilt.finds _ _).mp hfound)
      exact ⟨Or.inl, fun hx => hx.elim id fun heq => heq ▸ hold⟩
    · exact hinserted

/-- A loop of inserts adds all its words. -/
theorem foldlM_holding {f : Trie → Text → Run Trie} {fuel : Nat} (ws : List Text)
    (hstep : ∀ w ∈ ws, ∀ T S n, Holding T S n → n + w.length < fuel →
      ∃ T', f T w = .ok T' ∧ Holding T' (fun x => S x ∨ x = lower w) (n + w.length))
    {T : Trie} {S : Text → Prop} {n : Nat} (h : Holding T S n)
    (hfuel : n + (ws.map List.length).sum < fuel) :
    ∃ T', ws.foldlM f T = .ok T' ∧
      Holding T' (fun x => S x ∨ Stored ws x) (n + (ws.map List.length).sum) := by
  induction ws generalizing T S n with
  | nil => exact ⟨T, rfl, h.of_iff (by simp [Stored]) (by simp)⟩
  | cons w ws ih =>
    simp only [List.map_cons, List.sum_cons] at hfuel ⊢
    obtain ⟨T₁, hcall, h₁⟩ := hstep w List.mem_cons_self T S n h (by omega)
    obtain ⟨T', hrun, h'⟩ := ih (fun v hv => hstep v (List.mem_cons_of_mem _ hv)) h₁ (by omega)
    refine ⟨T', ?_, h'.of_iff (fun x => ?_) (by omega)⟩
    · rw [List.foldlM_cons, hcall]
      exact hrun
    · simp [Stored, or_assoc]

/-- Reading a file adds the words of its lines. -/
theorem readDictionaryFile_holding {T : Trie} {S : Text → Prop} {n fuel : Nat}
    (h : Holding T S n) {content : Text} (hplain : ∀ l ∈ lines 10 content, Plain l)
    (hfuel : n + content.length < fuel) :
    ∃ T', readDictionaryFile fuel content T = .ok T' ∧
      Holding T' (fun x => S x ∨ Stored (lines 10 content) x) (n + content.length) := by
  have hsum := sum_length_lines_le 10 content
  obtain ⟨before, after, hall, hread⟩ :=
    readDictionaryFile_eq (by omega : content.length < fuel)
  rw [hall] at hplain hsum ⊢
  simp only [List.map_append, List.sum_append] at hsum
  have hfuel₁ : n + (after.map List.length).sum < fuel := by omega
  have hfuel₂ : n + (after.map List.length).sum + (before.map List.length).sum < fuel := by omega
  obtain ⟨T₁, hrun₁, h₁⟩ := foldlM_holding after
    (fun w hw T S n hT hn => insertNew_holding hT (hplain w (List.mem_append_right _ hw)) hn) h
    hfuel₁
  obtain ⟨T', hrun₂, h₂⟩ := foldlM_holding before
    (fun w hw T S n hT hn =>
      insertWord_holding hT (hplain w (List.mem_append_left _ hw)).storable hn) h₁ hfuel₂
  refine ⟨T', ?_, h₂.of_iff (fun x => ?_) (by omega)⟩
  · rw [hread, hrun₁]
    exact hrun₂
  · rw [stored_append, or_assoc, or_comm (a := Stored after x)]

/-! ## What Find recognises -/

/-- The result of `Find` from the root. -/
def recognises (fuel : Nat) (T : Trie) (q : Text) : Run Bool :=
  (T.find fuel (c_str q) T.root).map Prod.fst

theorem recognises_holding {T : Trie} {S : Text → Prop} {n fuel : Nat} (h : Holding T S n)
    (hfuel : n < fuel) {q : Text} (hne : q ≠ []) (hzero : 0 ∉ q) :
    ∃ found, recognises fuel T q = .ok found ∧ (found = true ↔ Ascii q ∧ S q) := by
  obtain ⟨t, words, hbuilt, hwords, hsize⟩ := h
  have hnodes : t.addrs.length < fuel := by
    have hle := hbuilt.size
    omega
  cases q with
  | nil => exact absurd rfl hne
  | cons d v =>
    unfold recognises
    rw [hbuilt.root, c_str]
    by_cases hascii : Ascii (d :: v)
    · rw [find_refines hbuilt.rep hascii hnodes]
      refine ⟨_, rfl, ?_⟩
      rw [hbuilt.finds, hwords]
      exact (and_iff_right hascii).symm
    · rw [find_high hbuilt.rep hzero (not_ascii hzero hascii) hnodes]
      exact ⟨false, rfl, by simp [hascii]⟩

theorem holding_empty : Holding .empty (fun _ => False) 0 :=
  ⟨.nil, [], built_empty, by simp [Stored], le_rfl⟩

/-- After any files over the bytes 1..127 without an empty line, reading one more makes the trie
recognise what it recognised before and the lower case form of each line of the file, and
nothing else. The last line of a file may do without a newline. -/
theorem the_loader_loses_nothing (files : List Text)
    (hfiles : ∀ f ∈ files, ∀ l ∈ lines 10 f, Plain l) (content : Text)
    (hcontent : ∀ l ∈ lines 10 content, Plain l) (fuel : Nat)
    (hfuel : (files.map List.length).sum + content.length < fuel) :
    ∃ T T', files.foldlM (fun T f => readDictionaryFile fuel f T) .empty = .ok T ∧
      readDictionaryFile fuel content T = .ok T' ∧
      ∀ q : Text, q ≠ [] → 0 ∉ q → ∃ before after, recognises fuel T q = .ok before ∧
        recognises fuel T' q = .ok after ∧
        (after = true ↔ before = true ∨ ∃ l ∈ lines 10 content, q = lower l) := by
  have hread : ∀ done f rest T, files = done ++ f :: rest →
      (∃ S, Holding T S (done.map List.length).sum) →
      ∃ T', readDictionaryFile fuel f T = .ok T' ∧
        ∃ S, Holding T' S ((done ++ [f]).map List.length).sum := by
    rintro done f rest T hsplit ⟨S, hT⟩
    simp only [hsplit, List.map_append, List.sum_append, List.map_cons, List.sum_cons] at hfuel
    obtain ⟨T', hrun, hT'⟩ := readDictionaryFile_holding hT (hfiles f (by simp [hsplit]))
      (by omega : _ < fuel)
    exact ⟨T', hrun, _, by simpa using hT'⟩
  obtain ⟨T, hrun, S, hT⟩ := foldlM_ok files hread ⟨_, holding_empty⟩
  obtain ⟨T', hrun', hT'⟩ := readDictionaryFile_holding hT hcontent hfuel
  refine ⟨T, T', hrun, hrun', fun q hne hzero => ?_⟩
  obtain ⟨before, hbefore, hS⟩ := recognises_holding hT (by omega : _ < fuel) hne hzero
  obtain ⟨after, hafter, hS'⟩ := recognises_holding hT' hfuel hne hzero
  refine ⟨before, after, hbefore, hafter, ?_⟩
  rw [hS, hS']
  constructor
  · rintro ⟨hascii, hq | hq⟩
    · exact Or.inl ⟨hascii, hq⟩
    · exact Or.inr hq
  · rintro (⟨hascii, hq⟩ | ⟨l, hl, rfl⟩)
    · exact ⟨hascii, Or.inl hq⟩
    · exact ⟨ascii_lower (hcontent l hl).2, Or.inr ⟨l, hl, rfl⟩⟩

/-- Two files, the second one without a newline at its end and with a word of the first. Its lines
are read in two passes, the second line to the last one before the first one. -/
theorem the_loader_adds_three_words_and_keeps_tea :
    ∃ T T', [bytes "Tea\n"].foldlM (fun T f => readDictionaryFile 20 f T) .empty = .ok T ∧
      readDictionaryFile 20 (bytes "tea\nB\nEat\nab") T = .ok T' ∧
      ∀ q ∈ [bytes "tea", bytes "b", bytes "eat", bytes "ab"], recognises 20 T' q = .ok true := by
  obtain ⟨T, T', hfirst, hsecond, hwords⟩ := the_loader_loses_nothing [bytes "Tea\n"]
    (by decide +kernel) (bytes "tea\nB\nEat\nab") (by decide +kernel) 20 (by decide)
  have hlower : (lines 10 (bytes "tea\nB\nEat\nab")).map lower =
      [bytes "tea", bytes "b", bytes "eat", bytes "ab"] := by decide +kernel
  refine ⟨T, T', hfirst, hsecond, fun q hq => ?_⟩
  have hplain : ∀ q ∈ [bytes "tea", bytes "b", bytes "eat", bytes "ab"], q ≠ [] ∧ 0 ∉ q := by
    decide +kernel
  obtain ⟨hne, hzero⟩ := hplain q hq
  rw [← hlower] at hq
  obtain ⟨l, hl, rfl⟩ := List.mem_map.mp hq
  obtain ⟨before, after, -, hafter, hiff⟩ := hwords (lower l) hne hzero
  rw [hafter, hiff.mpr (Or.inr ⟨l, hl, rfl⟩)]

end anagram
