import Mathlib.Algebra.Ring.Int.Defs
import Mathlib.Algebra.Ring.Nat
import Mathlib.Logic.Function.Basic
import Mathlib.Data.List.Basic

/-!
# Bytes, columns and positional pairs

The vocabulary shared by every layer of the model: the bytes of a raw file, the
column and row numbers of `NoDBCol.h` and `NoDBRow.h`, the `(pointer, width)`
pairs of `NoDBPM.h`, and the CSV options that `GetScanState` fixes.

`NoDBCol_t` is an `int` that only ever holds attribute numbers `0 .. natts - 1`,
and `NoDBRow_t` is an `unsigned long` row counter; both are natural numbers here.
The two halves of a positional pair are `unsigned short` in the source, and the
arithmetic on them wraps, so they are `UInt16`.
-/

namespace PostgresRaw

/-- A byte of the raw file (`char` in the source). -/
abbrev Byte := UInt8

/-- `'\0'`. -/
def nulByte : Byte := 0

/-- `'\n'`. -/
def newline : Byte := 10

/-- `'\r'`. -/
def carriageReturn : Byte := 13

/-- `'\\'`. -/
def backslash : Byte := 92

/-- The default `cstate->quote` of `GetScanState`, a double quote. -/
def defaultQuote : Byte := 34

/-- `NoDBPMPair_t`: where a field starts in its line and how many bytes it has.
Both members are `unsigned short`. -/
structure PMPair where
  pointer : UInt16
  width : UInt16
deriving DecidableEq, Repr

/-- The CSV options of a scan as `GetScanState` leaves them: the delimiter is one
byte that is neither a line end nor the quote, the quote and the escape are a double
quote, and the null marker is the empty string. -/
structure CsvFormat where
  delim : Byte
  delim_ne_newline : delim ≠ newline
  delim_ne_carriageReturn : delim ≠ carriageReturn
  delim_ne_quote : delim ≠ defaultQuote
  -- `strlen(cstate->delim) == 1` rules the terminating byte out.
  delim_ne_nul : delim ≠ nulByte

/-- `cstate->quote[0]`. -/
def CsvFormat.quote (_ : CsvFormat) : Byte := defaultQuote

/-- `cstate->escape[0]`, which defaults to the quote. -/
def CsvFormat.escape (fmt : CsvFormat) : Byte := fmt.quote

/-- `cstate->null_print`, which is empty in CSV mode. -/
def CsvFormat.nullPrint (_ : CsvFormat) : List Byte := []

@[simp] theorem CsvFormat.quote_eq (fmt : CsvFormat) : fmt.quote = defaultQuote := rfl

@[simp] theorem CsvFormat.nullPrint_eq (fmt : CsvFormat) : fmt.nullPrint = [] := rfl

/-- The default format of CSV mode: fields separated by commas. -/
def commaFormat : CsvFormat where
  delim := 44
  delim_ne_newline := by decide
  delim_ne_carriageReturn := by decide
  delim_ne_quote := by decide
  delim_ne_nul := by decide

/-- The C string that starts at the head of a buffer: everything before its first
`'\0'`, or all of it, the buffer being followed by a terminating `'\0'`. -/
def cString (bytes : List Byte) : List Byte := bytes.takeWhile (· ≠ nulByte)

/-- The value of an expression when it is stored in an `int`. -/
def toInt (n : Int) : Int := n.bmod (2 ^ 32)

theorem toInt_of_lt {n : Nat} (small : n < 2 ^ 31) : toInt n = n := by
  rw [toInt, Int.bmod_eq_of_le] <;> omega

end PostgresRaw
