-- The machine under the program: how a run can fail, signed chars, and the
-- functions of the C library that the program calls on them. The build is
-- g++ on x86, so a plain `char` is signed.
import Anagram.General.Outcome

namespace anagram

/-- How a run can end without a result. `undefined` is undefined behaviour: an access outside
an array, or through a null pointer. `out_of_fuel` means that the fuel of the model ran out,
so a run that fails with it for every fuel never ends. -/
inductive Fault
  | undefined
  | out_of_fuel
deriving DecidableEq, Repr

abbrev Run := Except Fault

/-- The bytes of a `std::string`, or of a C string before its terminating NUL. -/
abbrev Text := List UInt8

/-- A `std::map<std::string, int>`. `compare` on byte lists is the order of `std::string`. -/
abbrev StringMap := Std.TreeMap Text Int

/-- The value of a `char` in a comparison. -/
def schar (c : UInt8) : Int := c.toInt8.toInt

/-- `(size_t) c` as the index of a table of 256 cells. A `char` from 128 on is negative, so it
converts to an index far past the table. -/
def cell (c : UInt8) : Run UInt8 := if c < 128 then .ok c else .error .undefined

/-- `tolower` and `isupper` on the value of an `unsigned char`, in the C locale. -/
def tolower (c : UInt8) : UInt8 := if 65 ≤ c ∧ c ≤ 90 then c + 32 else c

def isupper (c : UInt8) : Bool := decide (65 ≤ c ∧ c ≤ 90)

/-- `tolower` on a plain `char`. `(char) 255` is `EOF`, which stays `EOF`. glibc maps the other
negative chars to the values of their bytes. -/
def tolowerChar (c : UInt8) : Int := if c = 255 then -1 else (tolower c).toNat

/-- The bytes of a text literal in the source. -/
def bytes (s : String) : Text := s.toList.map (fun c => UInt8.ofNat c.toNat)

/-- The memory at `s.c_str()`: the bytes of the string and the terminating NUL. -/
def c_str (s : Text) : List UInt8 := s ++ [0]

/-- A C string, as the bytes before its NUL. -/
structure CString where
  bytes : Text
  no_nul : (0 : UInt8) ∉ bytes

/-- A text over the bytes 1..127. -/
def Ascii (w : Text) : Prop := ∀ c ∈ w, 0 < c ∧ c < 128

instance (w : Text) : Decidable (Ascii w) :=
  inferInstanceAs (Decidable (∀ c ∈ w, 0 < c ∧ c < 128))

theorem toNat_tolower (c : UInt8) :
    (tolower c).toNat = if 65 ≤ c.toNat ∧ c.toNat ≤ 90 then c.toNat + 32 else c.toNat := by
  unfold tolower
  simp only [UInt8.le_iff_toNat_le, UInt8.reduceToNat]
  split_ifs
  · rw [UInt8.toNat_add]
    simp only [UInt8.reduceToNat]
    omega
  · rfl

@[simp] theorem cell_of_lt {c : UInt8} (h : c < 128) : cell c = .ok c := if_pos h

theorem cell_eq_ok {c d : UInt8} (h : cell c = .ok d) : c < 128 ∧ d = c := by
  unfold cell at h
  split at h
  · cases h
    exact ⟨‹_›, rfl⟩
  · cases h

end anagram
