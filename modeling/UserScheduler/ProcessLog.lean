/-
The kernel's log lines and the script that reads them.

`_print_process_info` writes one line for each child; time_calc.py tokenises
it, drops everything up to the marker and takes the two times apart at the dot.
The nanoseconds are written without padding and read as an integer of their own,
so the dot is no decimal point on either side.

The C side and the Python side are embedded separately, and the main results
compose them.
-/

import UserScheduler.Lib.Tokens
import UserScheduler.Timespec

namespace UserScheduler.ProcessLog

open Tokens

/-! ### The writer -/

/-- `printk` on formats with no directives but `%d` and `%ld`. -/
def printk : List Char → List Int → List Char
  | '%' :: 'd' :: format, value :: values => decimal value ++ printk format values
  | '%' :: 'l' :: 'd' :: format, value :: values => decimal value ++ printk format values
  | c :: format, values => c :: printk format values
  | [], _ => []

/-- `_print_process_info` -/
def printProcessInfo (pid : Int) (startTime stopTime : Timespec) : List Char :=
  printk "[Project1] %d %ld.%ld %ld.%ld".toList
    [pid, startTime.tvSec, startTime.tvNsec, stopTime.tvSec, stopTime.tvNsec]

/-! ### The reader -/

inductive PyError where
  | stopIteration
  | valueError
deriving DecidableEq, Repr

/-- `str.isspace` on one character. -/
def isSpace (c : Char) : Bool :=
  (9 ≤ c.toNat && c.toNat ≤ 13) || (28 ≤ c.toNat && c.toNat ≤ 32) || c.toNat == 0x85 ||
    c.toNat == 0xA0 || c.toNat == 0x1680 || (0x2000 ≤ c.toNat && c.toNat ≤ 0x200A) ||
    c.toNat == 0x2028 || c.toNat == 0x2029 || c.toNat == 0x202F || c.toNat == 0x205F ||
    c.toNat == 0x3000

/-- `str.split()` -/
def split (line : List Char) : List (List Char) := words isSpace line

/-- `int` on a string, with the decimal digits of ASCII. -/
def int (string : List Char) : Except PyError Int :=
  match readDecimal (strip isSpace string) with
  | some value => .ok value
  | none => .error .valueError

def marker : List Char := "[Project1]".toList

/-- `next` raises StopIteration when no marker was found. -/
def lineFilter (strings : List (List Char)) : Except PyError (List (List Char)) :=
  match strings.dropWhile fun x => x != marker with
  | [] => .error .stopIteration
  | _ :: importantPart => .ok importantPart

structure TimeInfo where
  nsec : Int
deriving DecidableEq, Repr

/-- `TimeInfo(string)` -/
def timeInfo (string : List Char) : Except PyError TimeInfo :=
  match string.splitOn '.' with
  | [sec, nanoSec] => do
      let nsec ← int nanoSec
      let sec ← int sec
      return { nsec := nsec + sec * 10 ^ 9 }
  | _ => .error .valueError

instance : Sub TimeInfo where
  sub lhs rhs := { nsec := lhs.nsec - rhs.nsec }

/-- What the loop prints for a line: the pid and the time in between. -/
def calcLine (line : List Char) : Except PyError (List Char × TimeInfo) := do
  match ← lineFilter (split line) with
  | [pid, begin, ending] =>
      let ending ← timeInfo ending
      let begin ← timeInfo begin
      return (pid, ending - begin)
  | _ => .error .valueError

/-- The loop prints until the input ends or a line raises. -/
def timeCalc : List (List Char) → List (List Char × TimeInfo) × Option PyError
  | [] => ([], none)
  | line :: rest =>
      match calcLine line with
      | .ok printed => (printed :: (timeCalc rest).1, (timeCalc rest).2)
      | .error raised => ([], some raised)

/-! ### Numerals and times -/

theorem isSpace_of_isDigit {c : Char} (isDigit : c.isDigit = true) : isSpace c = false := by
  have range : 48 ≤ c.toNat ∧ c.toNat ≤ 57 := by
    simpa [Char.isDigit, UInt32.le_iff_toNat_le] using isDigit
  simp [isSpace]
  omega

theorem decimal_solid (value : Int) : Solid isSpace (decimal value) := by
  intro c member
  rcases mem_decimal member with isSign | isDigit
  · rw [isSign]
    rfl
  · exact isSpace_of_isDigit isDigit

theorem dot_not_mem_decimal (value : Int) : '.' ∉ decimal value := by
  intro member
  rcases mem_decimal member with isSign | isDigit
  · cases isSign
  · cases isDigit

theorem int_decimal (value : Int) : int (decimal value) = .ok value := by
  rw [int, (decimal_solid value).strip_eq, readDecimal_decimal]

/-- A time as `%ld.%ld` prints it. -/
def timeText (time : Timespec) : List Char := decimal time.tvSec ++ '.' :: decimal time.tvNsec

theorem timeText_solid (time : Timespec) : Solid isSpace (timeText time) :=
  (decimal_solid time.tvSec).append ((decimal_solid time.tvNsec).cons rfl)

theorem timeText_ne_nil (time : Timespec) : timeText time ≠ [] :=
  List.append_ne_nil_of_left_ne_nil (decimal_ne_nil time.tvSec) _

/-- The dot separates two integers. -/
theorem timeInfo_timeText (time : Timespec) :
    timeInfo (timeText time) = .ok { nsec := time.tvSec * 10 ^ 9 + time.tvNsec } := by
  have pieces : (timeText time).splitOn '.' = [decimal time.tvSec, decimal time.tvNsec] := by
    rw [timeText, List.splitOn_append_cons_self_of_not_mem (dot_not_mem_decimal _),
      List.splitOn_eq_singleton (dot_not_mem_decimal _)]
  rw [timeInfo, pieces]
  simp only [int_decimal]
  rw [Int.add_comm]
  rfl

/-! ### One line -/

variable {before : List Char}

theorem printProcessInfo_eq (pid : Int) (startTime stopTime : Timespec) :
    printProcessInfo pid startTime stopTime =
      marker ++ ' ' :: (decimal pid ++ ' ' :: (timeText startTime ++ ' ' ::
        timeText stopTime)) := by
  have expanded : printProcessInfo pid startTime stopTime =
      marker ++ ' ' :: (decimal pid ++ ' ' :: (decimal startTime.tvSec ++ '.' ::
        (decimal startTime.tvNsec ++ ' ' :: (decimal stopTime.tvSec ++ '.' ::
          (decimal stopTime.tvNsec ++ []))))) := rfl
  simp only [expanded, timeText, List.append_assoc, List.cons_append, List.append_nil]

theorem marker_solid : Solid isSpace marker := by
  have noBlank : (marker.all fun c => !isSpace c) = true := rfl
  intro c member
  simpa using List.all_eq_true.mp noBlank c member

theorem split_line (pid : Int) (startTime stopTime : Timespec) (before : List Char) :
    split (before ++ ' ' :: printProcessInfo pid startTime stopTime) =
      split before ++ [marker, decimal pid, timeText startTime, timeText stopTime] := by
  have isBlank : isSpace ' ' = true := rfl
  rw [split, words_append_cons before _ isBlank, printProcessInfo_eq,
    marker_solid.words_cons (by decide) isBlank,
    (decimal_solid pid).words_cons (decimal_ne_nil pid) isBlank,
    (timeText_solid startTime).words_cons (timeText_ne_nil startTime) isBlank,
    (timeText_solid stopTime).words_eq (timeText_ne_nil stopTime)]
  rfl

/-- Everything up to the first marker is dropped. -/
theorem lineFilter_append {unmarked : List (List Char)} (noMarker : marker ∉ unmarked)
    (strings : List (List Char)) :
    lineFilter (unmarked ++ marker :: strings) = .ok strings := by
  have passed : ∀ x ∈ unmarked, (x != marker) = true := by
    intro x member
    rw [bne_iff_ne]
    intro isMarker
    rw [isMarker] at member
    exact noMarker member
  rw [lineFilter, List.dropWhile_append_of_pos passed, List.dropWhile_cons_of_neg (by simp)]

theorem lineFilter_line (pid : Int) (startTime stopTime : Timespec)
    (unmarked : marker ∉ split before) :
    lineFilter (split (before ++ ' ' :: printProcessInfo pid startTime stopTime)) =
      .ok [decimal pid, timeText startTime, timeText stopTime] := by
  rw [split_line]
  exact lineFilter_append unmarked _

theorem calcLine_line (pid : Int) (startTime stopTime : Timespec)
    (unmarked : marker ∉ split before) :
    calcLine (before ++ ' ' :: printProcessInfo pid startTime stopTime) =
      .ok (decimal pid, { nsec := (stopTime.tvSec * 10 ^ 9 + stopTime.tvNsec) -
        (startTime.tvSec * 10 ^ 9 + startTime.tvNsec) }) := by
  rw [calcLine, lineFilter_line pid startTime stopTime unmarked]
  change (timeInfo (timeText stopTime) >>= fun ending =>
    timeInfo (timeText startTime) >>= fun begin => pure (decimal pid, ending - begin)) = _
  rw [timeInfo_timeText, timeInfo_timeText]
  rfl

/-- The reader takes every line of the writer apart into what was written.  No
sign or size of the numbers matters, nor does the text before the marker. -/
theorem reader_undoes_writer (pid : Int) (startTime stopTime : Timespec) (before : List Char)
    (unmarked : marker ∉ split before) :
    ∃ begin ending,
      lineFilter (split (before ++ ' ' :: printProcessInfo pid startTime stopTime)) =
        .ok [decimal pid, begin, ending] ∧
      int (decimal pid) = .ok pid ∧
      timeInfo begin = .ok { nsec := startTime.tvSec * 10 ^ 9 + startTime.tvNsec } ∧
      timeInfo ending = .ok { nsec := stopTime.tvSec * 10 ^ 9 + stopTime.tvNsec } ∧
      calcLine (before ++ ' ' :: printProcessInfo pid startTime stopTime) =
        .ok (decimal pid, { nsec := (stopTime.tvSec * 10 ^ 9 + stopTime.tvNsec) -
          (startTime.tvSec * 10 ^ 9 + startTime.tvNsec) }) := by
  refine ⟨timeText startTime, timeText stopTime, ?_, ?_, ?_, ?_, ?_⟩
  · exact lineFilter_line pid startTime stopTime unmarked
  · exact int_decimal pid
  · exact timeInfo_timeText startTime
  · exact timeInfo_timeText stopTime
  · exact calcLine_line pid startTime stopTime unmarked

/-- A line that dmesg has stamped, with few digits after the second dot. -/
theorem reader_undoes_writer_stamped :
    ∃ begin ending,
      lineFilter (split ("[  123.456789]".toList ++ ' ' ::
        printProcessInfo 4321 ⟨5, 999999999⟩ ⟨7, 42⟩)) =
          .ok ["4321".toList, begin, ending] ∧
      timeInfo begin = .ok ⟨5999999999⟩ ∧ timeInfo ending = .ok ⟨7000000042⟩ ∧
      calcLine ("[  123.456789]".toList ++ ' ' ::
        printProcessInfo 4321 ⟨5, 999999999⟩ ⟨7, 42⟩) = .ok ("4321".toList, ⟨1000000043⟩) := by
  obtain ⟨begin, ending, filtered, _, isBegin, isEnding, printed⟩ :=
    reader_undoes_writer 4321 ⟨5, 999999999⟩ ⟨7, 42⟩ "[  123.456789]".toList (by decide +kernel)
  exact ⟨begin, ending, filtered, isBegin, isEnding, printed⟩

/-! ### Whole logs -/

/-- A line of the log that some call of `_print_process_info` wrote. -/
structure Record where
  before : List Char
  pid : Int
  startTime : Timespec
  stopTime : Timespec
  unmarked : marker ∉ split before

def Record.line (record : Record) : List Char :=
  record.before ++ ' ' :: printProcessInfo record.pid record.startTime record.stopTime

def Record.printed (record : Record) : List Char × TimeInfo :=
  (decimal record.pid, { nsec := nanoseconds record.stopTime - nanoseconds record.startTime })

/-- A log with no other lines is read to its end, record for record. -/
theorem timeCalc_log (log : List Record) :
    timeCalc (log.map Record.line) = (log.map Record.printed, none) := by
  induction log with
  | nil => rfl
  | cons record rest ih =>
      have printed : calcLine record.line = .ok record.printed :=
        calcLine_line record.pid record.startTime record.stopTime record.unmarked
      simp only [List.map_cons, timeCalc, printed, ih]

end UserScheduler.ProcessLog
