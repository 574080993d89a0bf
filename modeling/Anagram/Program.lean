-- The program from its arguments to its last line (main.cc). It reads the
-- arguments and the dictionaries, runs the job, and prints the map of the
-- anagrams in its order.
import Anagram.Arguments
import Anagram.DictionaryLaws
import Anagram.SearchJob
import Anagram.GatherLog

open outcome

namespace anagram

/-! ## The dictionaries -/

/-- What a run finds where it starts: the contents of the two dictionary files, if they are there,
the number of cores, and the outcomes of the calls that may fail. -/
structure Surroundings where
  dict_no_abbreviations : Option Text
  bigdict : Option Text
  hardware_concurrency : Nat
  params_ok : Bool
  handles_ok : Bool
  create_error : Nat → Bool

/-- A stream on a path. It has failed when there is no file. -/
def Stream.onPath : Option Text → Stream
  | some content => .opened content
  | none => ⟨[], [], false, true⟩

/-- `ReadDictionaryFile`, on a path. -/
def readDictionaryPath (fuel : Nat) (file : Option Text) (trie : Trie) : Run Trie :=
  let (lineTot, file) := getWordCount (Stream.onPath file)
  readPhases fuel (lineTot >>> (1 : Nat)).toNat file trie

/-- The dictionaries that `main` reads. -/
def loadDictionaries (fuel : Nat) (env : Surroundings) (a : Arguments) : Run Trie := do
  let trie ← readDictionaryPath fuel env.dict_no_abbreviations .empty
  if a.big_dictionary then readDictionaryPath fuel env.bigdict trie else .ok trie

/-! ## The job -/

/-- `core_tot`: one core less than there are, and one at least. -/
def coreTot (hardware_concurrency : Nat) : Nat :=
  if 1 < hardware_concurrency then hardware_concurrency - 1 else 1

/-- The text of an effect: a key, or what is pushed. -/
def Effect.text : Effect → Text
  | .write key => key
  | .push text => text

/-- The text that an anagram is emitted as. With -o, that is a line. -/
def emittedText (flags : AnagramFlags) (x : Text) : Text := (emission flags x).text

/-- The job that `main` runs on its dictionaries. Worker 0 gathers, and each worker searches the
subset that it finds. The words of the subset come in the order of the map. -/
def programJob (T : Trie) (columns : Text → Nat → Nat) (fuel : Nat) (env : Surroundings)
    (a : Arguments) (prior : OccupancyHash) : Run SearchJob := do
  let core_tot := coreTot env.hardware_concurrency
  let master_count ← OccupancyHash.ofWord prior a.word
  let s ← gather T columns 0 fuel a.flags a.excludeset master_count a.word
    ⟨fun _ => false, OccupancyHash.new, ∅, .start⟩
  .ok {
    thread_tot := core_tot
    params_ok := env.params_ok
    handles_ok := env.handles_ok
    create_error := env.create_error
    gathered := s.subset.keys
    singles := (emissions a.flags .start s.world).map Effect.text
    found := fun i subset =>
      (threadSearch 64 fuel core_tot a.flags a.word subset i).map fun L =>
        L.map fun ws => emittedText a.flags (phrase ws) }

/-- What `main` does once it has its arguments, up to `RunJob`. -/
def mainJob (columns : Text → Nat → Nat) (fuel : Nat) (env : Surroundings) (a : Arguments)
    (prior : OccupancyHash) : Run SearchJob := do
  let trie ← loadDictionaries fuel env a
  programJob trie columns fuel env a prior

/-! ## The last lines -/

def LOG_NONE : Nat := 0

def LOG_NORMAL : Nat := 1

def isdigit (c : UInt8) : Bool := decide (0x30 ≤ c ∧ c ≤ 0x39)

/-- The flag -v sets the log level to its digit, if it has one. -/
def readLevel (level : Nat) (arg : Text) : Nat :=
  if arg.take 2 = bytes "-v" then
    match arg.drop 2 with
    | c :: _ => if isdigit c then (c - 0x30).toNat else level
    | [] => level
  else level

/-- The log level after the loop over the arguments. -/
def verbosityOf (args : List Text) : Nat := args.foldl readLevel LOG_NORMAL

/-- `VERBOSE_LOG`. -/
def verboseLog (verbosity level : Nat) (text : Text) : Text :=
  if level ≤ verbosity then text else []

def COUT_BOLD_YELLOW : Text := bytes "\x1b[1;33m"

def COUT_BOLD_WHITE : Text := bytes "\x1b[1;37m"

def COUT_NORMAL_WHITE : Text := bytes "\x1b[1;37m"

def COUT_SHOWCURSOR : Text := bytes "\x1b[?25h"

/-- The header, with the phrase. -/
def headerLine (verbosity : Nat) (word : Text) : Text :=
  verboseLog verbosity LOG_NORMAL (bytes "\r                         \r" ++ COUT_BOLD_WHITE ++
    cString word ++ COUT_BOLD_YELLOW ++ bytes "\n")

/-- The lines of the loop over the map, and their number, an `int`. -/
def foundLines (verbosity : Nat) (keys : List Text) : Text :=
  let count := (keys.length : Int).bmod (2 ^ 32)
  keys.flatMap (· ++ bytes "\n") ++ verboseLog verbosity LOG_NORMAL
    (COUT_BOLD_WHITE ++ bytes (toString count) ++ bytes " ANAGRAMS FOUND.")

def endLine (verbosity : Nat) : Text :=
  verboseLog verbosity LOG_NONE (COUT_NORMAL_WHITE ++ COUT_SHOWCURSOR ++ bytes "\n")

/-- What `main` prints after `RunJob` has returned. With -o, the workers have pushed the
anagrams. -/
def lastOutput (verbosity : Nat) (a : Arguments) (anagrams : StringMap) : Text :=
  (if a.flags.output_directly then []
    else headerLine verbosity a.word ++ foundLines verbosity anagrams.keys) ++ endLine verbosity

/-! ## A missing file -/

/-- `GetWordCount` counts no line in a file that is not there. -/
theorem getWordCount_none :
    getWordCount (Stream.onPath none) = (0, ⟨[], [], false, true⟩) := by
  unfold getWordCount Stream.onPath Stream.seekg
  simp only [List.count_nil, Nat.cast_zero, Int.zero_bmod, if_true]

/-- Nor is there one to insert. -/
theorem readPhases_none (fuel : Nat) (trie : Trie) :
    readPhases (fuel + 1) 0 ⟨[], [], false, true⟩ trie = .ok trie := by
  simp only [readPhases, skipLoop, phase1, Stream.getline, Bool.or_true, if_true, bind_ok, phase2]

theorem readDictionaryPath_none {fuel : Nat} (hfuel : 0 < fuel) (trie : Trie) :
    readDictionaryPath fuel none trie = .ok trie := by
  obtain ⟨n, rfl⟩ := Nat.exists_eq_succ_of_ne_zero hfuel.ne'
  unfold readDictionaryPath
  rw [getWordCount_none]
  exact readPhases_none n trie

end anagram
