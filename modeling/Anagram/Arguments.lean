-- The command line (main.cc). Flags come first, each in an argument of its own
-- with a dash in front, and then the words of the phrase. The flag -e takes the
-- words to exclude, with commas between them.
import Anagram.Combine

namespace anagram

/-- What the loop over the arguments sets. The log level of `-v`, which only the output reads, and
the flag of `-t`, which nothing reads, are left out. -/
structure Arguments where
  flags : AnagramFlags
  big_dictionary : Bool
  excludeset : StringMap
  word : Text

def Arguments.start : Arguments := ⟨⟨false, false, false⟩, false, ∅, []⟩

/-- The loop over the characters after `-e`, where the terminating NUL ends the last field. -/
def excludeLoop : Text → Text → StringMap → StringMap
  | [], parse, excludeset => excludeset.insert (parse.map tolower) 1
  | nchar :: rest, parse, excludeset =>
    if nchar = 0x2c then excludeLoop rest [] (excludeset.insert (parse.map tolower) 1)
    else excludeLoop rest (parse ++ [nchar]) excludeset

/-- The cases for `argv[i][1]`, and the rest of the argument. Gives `none` where the program prints
its usage and ends. -/
def readFlag (a : Arguments) : Text → Option Arguments
  | [] => none
  | c :: rest =>
    if c = 0x76 then some a
    else if c = 0x62 then some { a with big_dictionary := true }
    else if c = 0x64 then some { a with flags := { a.flags with allow_dupes := true } }
    else if c = 0x65 then some { a with excludeset := excludeLoop rest [] a.excludeset }
    else if c = 0x73 then some { a with flags := { a.flags with print_subset := true } }
    else if c = 0x74 then some a
    else if c = 0x6f then some { a with flags := { a.flags with output_directly := true } }
    else none

/-- One turn of the loop over the arguments. A flag after a word is an error. -/
def readArgument (a : Arguments) (arg : Text) : Option Arguments :=
  if arg.head? = some 0x2d then
    if a.word.length ≠ 0 then none else readFlag a arg.tail
  else some { a with word := a.word ++ arg ++ bytes " " }

/-- `isspace`, in the C locale. -/
def isspace (c : UInt8) : Bool := decide (c = 0x20 ∨ 9 ≤ c ∧ c ≤ 13)

/-- `word.erase(std::find_if(...).base(), word.end())`. -/
def rtrim (word : Text) : Text := (word.reverse.dropWhile isspace).reverse

/-- What `main` makes of its arguments, other than its own name. -/
def parseArguments (args : List Text) : Option Arguments := do
  let a ← args.foldlM readArgument .start
  let word := (rtrim a.word).map tolower
  if word.length = 0 then none else some { a with word }

end anagram
