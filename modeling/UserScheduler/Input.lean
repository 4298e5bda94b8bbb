/-
The input of the scheduler, as `scanf` reads it.

The standard input is a list of characters and a conversion takes a part of its
front.  A conversion that fails leaves its variable as it was, and a buffer
from malloc has no known contents, so the reader is given what memory holds
before it writes.  A name that is too long runs past its buffer.

What is read depends on the words of the text only, not on the blanks and
newlines between them.
-/

import UserScheduler.EventLoop
import UserScheduler.Lib.Tokens

namespace UserScheduler
namespace Input

open Tokens

/-! ### Conversions -/

/-- `isspace` in the C locale. -/
def isspace (c : Char) : Bool := c == ' ' || decide ('\t' ≤ c ∧ c ≤ '\r')

def PROCESS_NAME_MAX : Nat := 100

/-- A string ends at its first null character. -/
def cString (stored : List Char) : List Char := stored.takeWhile (· != '\x00')

/-- `scanf("%s", buffer)` for a buffer of so many bytes, one of which the
terminator takes. -/
def scanString (size : Nat) (stdin : List Char) : Result (Option (List Char) × List Char) :=
  let text := stdin.dropWhile isspace
  let item := text.takeWhile (!isspace ·)
  if item = [] then .ok (none, text)
  else if item.length < size then .ok (some (cString item), text.dropWhile (!isspace ·))
  else .error .outOfBounds

inductive Sign where
  | unsigned
  | plus
  | minus
deriving DecidableEq, Repr

def scanSign : List Char → Sign × List Char
  | '-' :: text => (.minus, text)
  | '+' :: text => (.plus, text)
  | text => (.unsigned, text)

/-- The number that a sign and digits stand for. -/
def signedValue (sign : Sign) (digits : List Char) : Int :=
  match sign with
  | .minus => -(Nat.ofDigitChars 10 digits 0 : Nat)
  | _ => (Nat.ofDigitChars 10 digits 0 : Nat)

/-- The C library converts with `strtol` and keeps the low half. -/
def storeInt (value : Int) : Int :=
  (max (-9223372036854775808) (min value 9223372036854775807)).bmod 4294967296

/-- `scanf("%d", &variable)`.  A sign without a digit is consumed and stores
nothing. -/
def scanInt (stdin : List Char) : Option Int × List Char :=
  let signed := scanSign (stdin.dropWhile isspace)
  let digits := signed.2.takeWhile Char.isDigit
  if digits = [] then (none, signed.2)
  else (some (storeInt (signedValue signed.1 digits)), signed.2.dropWhile Char.isDigit)

/-! ### The reader -/

def strToStrategy (strat : List Char) : Result ScheduleStrategy :=
  if strat = "RR".toList then .ok .RR
  else if strat = "FIFO".toList then .ok .FIFO
  else if strat = "SJF".toList then .ok .SJF
  else if strat = "PSJF".toList then .ok .PSJF
  else .error .assertionFailed

/-- A process as it is read: the name that is printed at the end, and what the
event loop uses. -/
structure NamedEntry where
  name : List Char
  entry : Entry
deriving DecidableEq, Repr

/-- What memory holds that nobody has written: `strat` on the stack, and the
buffer of the name and the two times of each process. -/
structure Unwritten where
  strat : List Char
  processes : Nat → NamedEntry

/-- `scanf("%d%d", &p->arrival_time, &p->time_needed)` gives up at the first
conversion that fails. -/
def scanTimes (unwritten : Entry) (stdin : List Char) : Entry × List Char :=
  match scanInt stdin with
  | (none, stdin) => (unwritten, stdin)
  | (some arrivalTime, stdin) =>
      match scanInt stdin with
      | (none, stdin) => ({ unwritten with arrivalTime := arrivalTime }, stdin)
      | (some timeNeeded, stdin) =>
          ({ arrivalTime := arrivalTime, timeNeeded := timeNeeded }, stdin)

def readSingleEntry (unwritten : NamedEntry) (stdin : List Char) :
    Result (NamedEntry × List Char) := do
  let scanned ← scanString PROCESS_NAME_MAX stdin
  let times := scanTimes unwritten.entry scanned.2
  return ({ name := scanned.1.getD unwritten.name, entry := times.1 }, times.2)

/-- The loop of `read_process_info`. -/
def readEntries (unwritten : Nat → NamedEntry) : Nat → List Char → Result (List NamedEntry)
  | 0, _ => .ok []
  | count + 1, stdin => do
      let first ← readSingleEntry (unwritten 0) stdin
      let others ← readEntries (fun process => unwritten (process + 1)) count first.2
      return first.1 :: others

/-- `num_process` is static, hence zero if there is no number. -/
def readProcessInfo (unwritten : Nat → NamedEntry) (stdin : List Char) :
    Result (Int × List NamedEntry) := do
  let scanned := scanInt stdin
  let numProcess := scanned.1.getD 0
  let processes ← readEntries unwritten numProcess.toNat scanned.2
  return (numProcess, processes)

structure Workload where
  currentStrategy : ScheduleStrategy
  numProcess : Int
  allProcessInfo : List NamedEntry
deriving DecidableEq, Repr

/-- What main does before it calls `arrival_queue_init`. -/
def readInput (unwritten : Unwritten) (stdin : List Char) : Result Workload := do
  let scanned ← scanString PROCESS_NAME_MAX stdin
  let currentStrategy ← strToStrategy (scanned.1.getD unwritten.strat)
  let read ← readProcessInfo unwritten.processes scanned.2
  return {
    currentStrategy := currentStrategy
    numProcess := read.1
    allProcessInfo := read.2 }

/-! ### What stands in a file -/

def Sign.text : Sign → List Char
  | .unsigned => []
  | .plus => ['+']
  | .minus => ['-']

/-- A number as somebody wrote it. -/
structure Numeral where
  sign : Sign
  digits : List Char
  nonempty : digits ≠ []
  allDigits : ∀ c ∈ digits, c.isDigit = true

def Numeral.text (numeral : Numeral) : List Char := numeral.sign.text ++ numeral.digits

/-- What `%d` stores for it. -/
def Numeral.stored (numeral : Numeral) : Int :=
  storeInt (signedValue numeral.sign numeral.digits)

/-- A process in a file: its name and as many of its two times as are there. -/
inductive Line where
  | nameOnly (name : List Char)
  | noTimeNeeded (name : List Char) (arrivalTime : Numeral)
  | complete (name : List Char) (arrivalTime timeNeeded : Numeral)

def Line.name : Line → List Char
  | .nameOnly name => name
  | .noTimeNeeded name _ => name
  | .complete name _ _ => name

def Line.words : Line → List (List Char)
  | .nameOnly name => [name]
  | .noTimeNeeded name arrivalTime => [name, arrivalTime.text]
  | .complete name arrivalTime timeNeeded => [name, arrivalTime.text, timeNeeded.text]

/-- What memory holds for a process after its line has been read. -/
def Line.fill (unwritten : NamedEntry) : Line → NamedEntry
  | .nameOnly name => { name := cString name, entry := unwritten.entry }
  | .noTimeNeeded name arrivalTime =>
      { name := cString name
        entry := { arrivalTime := arrivalTime.stored, timeNeeded := unwritten.entry.timeNeeded } }
  | .complete name arrivalTime timeNeeded =>
      { name := cString name
        entry := { arrivalTime := arrivalTime.stored, timeNeeded := timeNeeded.stored } }

/-- `%d` takes nothing from a word that begins like this. -/
def NotNumber (word : List Char) : Prop :=
  ∀ c ∈ word.head?, c.isDigit = false ∧ c ≠ '-' ∧ c ≠ '+'

/-- A time is missing only where a word follows that no number begins with, or
nothing at all. -/
def Line.Ends (following : List (List Char)) : Line → Prop
  | .complete _ _ _ => True
  | _ => ∀ word ∈ following.head?, NotNumber word

/-- The lines of a file, and the words behind them. -/
def LinesEnd : List Line → List (List Char) → Prop
  | [], _ => True
  | line :: lines, trailing =>
      line.Ends (lines.flatMap Line.words ++ trailing) ∧ LinesEnd lines trailing

/-! ### Conversions and words -/

theorem isspace_of_isDigit {c : Char} (isDigit : c.isDigit = true) : isspace c = false := by
  rw [Char.isDigit, Bool.and_eq_true_iff, decide_eq_true_iff, decide_eq_true_iff] at isDigit
  obtain ⟨low, _⟩ := isDigit
  have low' : 48 ≤ c.val.toNat := UInt32.le_iff_toNat_le.mp low
  rw [isspace, Bool.or_eq_false_iff]
  constructor
  · rw [beq_eq_false_iff_ne]
    rintro rfl
    exact absurd low' (by decide)
  · rw [decide_eq_false_iff_not]
    rintro ⟨_, high⟩
    have high' : c.val.toNat ≤ 13 := UInt32.le_iff_toNat_le.mp high
    omega

theorem scanSign_other {first : Char} {rest : List Char} (notMinus : first ≠ '-')
    (notPlus : first ≠ '+') : scanSign (first :: rest) = (.unsigned, first :: rest) := by
  unfold scanSign
  split
  · rename_i isMinus
    exact absurd (List.cons.inj isMinus).1 notMinus
  · rename_i isPlus
    exact absurd (List.cons.inj isPlus).1 notPlus
  · rfl

/-- The first word is stored if the buffer has room for it and its terminator. -/
theorem scanString_words (size : Nat) {stdin word : List Char} {others : List (List Char)}
    (cut : words isspace stdin = word :: others) :
    ∃ later, words isspace later = others ∧
      scanString size stdin =
        if word.length < size then .ok (some (cString word), later)
        else .error .outOfBounds := by
  obtain ⟨later, start, rest, nonempty, solid, stops⟩ := words_eq_cons cut
  have notSpace : ∀ c ∈ word, (!isspace c) = true := by
    intro c member
    rw [solid c member]
    rfl
  have isSpace : ∀ c ∈ later.head?, (!isspace c) = false := by
    intro c isHead
    rw [stops c isHead]
    rfl
  obtain ⟨taken, dropped⟩ := takeWhile_dropWhile_append notSpace isSpace
  refine ⟨later, rest, ?_⟩
  rw [scanString]
  simp only [start, taken, dropped, nonempty, if_false]

theorem scanString_end (size : Nat) {stdin : List Char} (cut : words isspace stdin = []) :
    scanString size stdin = .ok (none, []) := by
  rw [scanString]
  simp only [words_eq_nil cut, List.takeWhile_nil, if_true]

/-- `%d` reads a numeral to its end. -/
theorem scanInt_numeral (numeral : Numeral) {stdin : List Char} {others : List (List Char)}
    (cut : words isspace stdin = numeral.text :: others) :
    ∃ later, words isspace later = others ∧ scanInt stdin = (some numeral.stored, later) := by
  obtain ⟨later, start, rest, _, _, stops⟩ := words_eq_cons cut
  have scanned : scanSign (numeral.text ++ later) = (numeral.sign, numeral.digits ++ later) := by
    rw [Numeral.text, List.append_assoc]
    cases numeral.sign with
    | plus => rfl
    | minus => rfl
    | unsigned =>
        obtain ⟨first, others, isCons⟩ := List.exists_cons_of_ne_nil numeral.nonempty
        have isDigit := numeral.allDigits first (by rw [isCons]; exact List.mem_cons_self)
        rw [isCons]
        exact scanSign_other (by rintro rfl; cases isDigit) (by rintro rfl; cases isDigit)
  have noDigit : ∀ c ∈ later.head?, c.isDigit = false := by
    intro c isHead
    by_contra isDigit
    cases (isspace_of_isDigit (Bool.not_eq_false _ ▸ isDigit)).symm.trans (stops c isHead)
  obtain ⟨taken, dropped⟩ := takeWhile_dropWhile_append numeral.allDigits noDigit
  refine ⟨later, rest, ?_⟩
  rw [scanInt]
  simp only [start, scanned, taken, dropped, numeral.nonempty, if_false]
  rfl

/-- `%d` takes nothing but separators if the first word is no number. -/
theorem scanInt_other {stdin : List Char}
    (notNumber : ∀ word ∈ (words isspace stdin).head?, NotNumber word) :
    ∃ later, words isspace later = words isspace stdin ∧ scanInt stdin = (none, later) := by
  refine ⟨stdin.dropWhile isspace, words_dropWhile stdin, ?_⟩
  rw [scanInt]
  cases cut : words isspace stdin with
  | nil =>
      simp only [words_eq_nil cut]
      rfl
  | cons word others =>
      obtain ⟨later, start, _, nonempty, _⟩ := words_eq_cons cut
      obtain ⟨first, rest, rfl⟩ := List.exists_cons_of_ne_nil nonempty
      rw [cut] at notNumber
      obtain ⟨notDigit, notMinus, notPlus⟩ := notNumber _ rfl first rfl
      rw [start]
      simp only [List.cons_append, scanSign_other notMinus notPlus,
        List.takeWhile_cons_of_neg (Bool.eq_false_iff.mp notDigit), if_true]

/-! ### One entry -/

/-- The entry of a line, and the text behind the line. -/
theorem readSingleEntry_line (line : Line) (unwritten : NamedEntry) {stdin : List Char}
    {following : List (List Char)} (cut : words isspace stdin = line.words ++ following)
    (ends : line.Ends following) :
    ∃ later, words isspace later = following ∧
      readSingleEntry unwritten stdin =
        if line.name.length < PROCESS_NAME_MAX then .ok (line.fill unwritten, later)
        else .error .outOfBounds := by
  have cut' : words isspace stdin = line.name :: (line.words.tail ++ following) := by
    rw [cut]
    cases line <;> rfl
  obtain ⟨behindName, rest, scanned⟩ := scanString_words PROCESS_NAME_MAX cut'
  have times : ∃ later, words isspace later = following ∧
      scanTimes unwritten.entry behindName = ((line.fill unwritten).entry, later) := by
    cases line with
    | nameOnly name =>
        change words isspace behindName = following at rest
        obtain ⟨later, same, failed⟩ := scanInt_other (by rw [rest]; exact ends)
        exact ⟨later, same.trans rest, by rw [scanTimes, failed]; rfl⟩
    | noTimeNeeded name arrivalTime =>
        obtain ⟨behindFirst, rest', first⟩ := scanInt_numeral arrivalTime rest
        change words isspace behindFirst = following at rest'
        obtain ⟨later, same, failed⟩ := scanInt_other (by rw [rest']; exact ends)
        exact ⟨later, same.trans rest', by rw [scanTimes, first]; simp only [failed]; rfl⟩
    | complete name arrivalTime timeNeeded =>
        obtain ⟨behindFirst, rest', first⟩ := scanInt_numeral arrivalTime rest
        obtain ⟨later, rest'', second⟩ := scanInt_numeral timeNeeded rest'
        exact ⟨later, rest'', by rw [scanTimes, first]; simp only [second]; rfl⟩
  obtain ⟨later, rest', isTimes⟩ := times
  refine ⟨later, rest', ?_⟩
  rw [readSingleEntry, scanned]
  split
  · change Except.ok (NamedEntry.mk (cString line.name) (scanTimes unwritten.entry behindName).1,
      (scanTimes unwritten.entry behindName).2) = _
    rw [isTimes]
    cases line <;> rfl
  · rfl

/-- At the end of the file an entry stays as it was. -/
theorem readSingleEntry_end (unwritten : NamedEntry) {stdin : List Char}
    (cut : words isspace stdin = []) :
    ∃ later, words isspace later = [] ∧
      readSingleEntry unwritten stdin = .ok (unwritten, later) := by
  have nothing : ∀ word ∈ (words isspace []).head?, NotNumber word := by
    intro word isFirst
    cases isFirst
  obtain ⟨later, same, failed⟩ := scanInt_other nothing
  refine ⟨later, same, ?_⟩
  rw [readSingleEntry, scanString_end PROCESS_NAME_MAX cut]
  change Except.ok (NamedEntry.mk unwritten.name (scanTimes unwritten.entry []).1,
    (scanTimes unwritten.entry []).2) = _
  rw [scanTimes, failed]

/-! ### All entries -/

/-- The table after so many entries have been read from these lines. -/
def filled (unwritten : Nat → NamedEntry) (lines : List Line) (count : Nat) : List NamedEntry :=
  (List.range count).map fun process =>
    match lines[process]? with
    | some line => line.fill (unwritten process)
    | none => unwritten process

theorem filled_length (unwritten : Nat → NamedEntry) (lines : List Line) (count : Nat) :
    (filled unwritten lines count).length = count := by
  rw [filled, List.length_map, List.length_range]

theorem filled_succ (unwritten : Nat → NamedEntry) (lines : List Line) (count : Nat) :
    filled unwritten lines (count + 1) =
      (match lines with
        | line :: _ => line.fill (unwritten 0)
        | [] => unwritten 0) ::
      filled (fun process => unwritten (process + 1)) lines.tail count := by
  rw [filled, List.range_succ_eq_map, List.map_cons, List.map_map]
  congr 1
  · cases lines <;> rfl
  · apply List.map_congr_left
    intro process _
    cases lines <;> rfl

/-- Every name leaves room for its terminator. -/
def NamesFit (lines : List Line) : Prop := ∀ line ∈ lines, line.name.length < PROCESS_NAME_MAX

instance (lines : List Line) : Decidable (NamesFit lines) :=
  inferInstanceAs (Decidable (∀ line ∈ lines, _))

theorem namesFit_cons {line : Line} {lines : List Line} :
    NamesFit (line :: lines) ↔ line.name.length < PROCESS_NAME_MAX ∧ NamesFit lines :=
  List.forall_mem_cons

theorem readEntries_end (count : Nat) (unwritten : Nat → NamedEntry) {stdin : List Char}
    (cut : words isspace stdin = []) :
    readEntries unwritten count stdin = .ok (filled unwritten [] count) := by
  induction count generalizing unwritten stdin with
  | zero => rfl
  | succ count ih =>
      obtain ⟨later, cut', read⟩ := readSingleEntry_end (unwritten 0) cut
      rw [readEntries, read, filled_succ]
      change (readEntries _ count later >>= _) = _
      rw [ih _ cut']
      rfl

/-- The loop reads line by line.  It stops at the first name that is too long. -/
theorem readEntries_lines (count : Nat) (unwritten : Nat → NamedEntry) (lines : List Line)
    {stdin : List Char} {trailing : List (List Char)}
    (cut : words isspace stdin = lines.flatMap Line.words ++ trailing)
    (ends : LinesEnd lines trailing) (enough : lines.length ≤ count)
    (short : lines.length < count → trailing = []) :
    readEntries unwritten count stdin =
      if NamesFit lines then .ok (filled unwritten lines count) else .error .outOfBounds := by
  induction lines generalizing count unwritten stdin with
  | nil =>
      rw [if_pos (by intro line member; cases member)]
      cases count with
      | zero => rfl
      | succ count =>
          rw [List.flatMap_nil, List.nil_append, short (Nat.succ_pos count)] at cut
          exact readEntries_end (count + 1) unwritten cut
  | cons line lines ih =>
      obtain ⟨count, rfl⟩ := Nat.exists_eq_succ_of_ne_zero (Nat.ne_zero_of_lt enough)
      rw [List.flatMap_cons, List.append_assoc] at cut
      obtain ⟨later, cut', read⟩ := readSingleEntry_line line (unwritten 0) cut ends.1
      rw [Nat.succ_eq_add_one, readEntries, read, filled_succ]
      by_cases fits : line.name.length < PROCESS_NAME_MAX
      · rw [if_pos fits]
        change (readEntries _ count later >>= _) = _
        rw [ih count _ cut' ends.2 (Nat.le_of_succ_le_succ enough)
          (fun fewer => short (Nat.succ_lt_succ fewer))]
        by_cases others : NamesFit lines
        · rw [if_pos others, if_pos (namesFit_cons.mpr ⟨fits, others⟩)]
          rfl
        · rw [if_neg others, if_neg (fun all => others (namesFit_cons.mp all).2)]
          rfl
      · rw [if_neg fits, if_neg (fun all => fits (namesFit_cons.mp all).1)]
        rfl

/-! ### Whole inputs -/

def strategyName : ScheduleStrategy → List Char
  | .RR => "RR".toList
  | .FIFO => "FIFO".toList
  | .SJF => "SJF".toList
  | .PSJF => "PSJF".toList

theorem scanString_strategyName (strategy : ScheduleStrategy) {stdin : List Char}
    {others : List (List Char)} (cut : words isspace stdin = strategyName strategy :: others) :
    ∃ later, words isspace later = others ∧
      scanString PROCESS_NAME_MAX stdin = .ok (some (strategyName strategy), later) := by
  obtain ⟨later, rest, scanned⟩ := scanString_words PROCESS_NAME_MAX cut
  refine ⟨later, rest, ?_⟩
  rw [scanned]
  cases strategy <;> rfl

theorem strToStrategy_strategyName (strategy : ScheduleStrategy) :
    strToStrategy (strategyName strategy) = .ok strategy := by
  cases strategy <;> rfl

/-- The strategy and the number of processes have been read. -/
theorem readInput_eq (unwritten : Unwritten) (strategy : ScheduleStrategy) (numProcess : Numeral)
    {rest : List (List Char)} {stdin : List Char}
    (cut : words isspace stdin = strategyName strategy :: numProcess.text :: rest) :
    ∃ later, words isspace later = rest ∧
      readInput unwritten stdin =
        (readEntries unwritten.processes numProcess.stored.toNat later).map fun processes => {
          currentStrategy := strategy
          numProcess := numProcess.stored
          allProcessInfo := processes } := by
  obtain ⟨behindName, cut', named⟩ := scanString_strategyName strategy cut
  obtain ⟨later, cut'', counted⟩ := scanInt_numeral numProcess cut'
  refine ⟨later, cut'', ?_⟩
  rw [readInput, named]
  change (strToStrategy (strategyName strategy) >>= _) = _
  rw [strToStrategy_strategyName]
  change (readProcessInfo unwritten.processes behindName >>= _) = _
  rw [readProcessInfo, counted]
  change (readEntries unwritten.processes numProcess.stored.toNat later >>= _) >>= _ = _
  cases readEntries unwritten.processes numProcess.stored.toNat later <;> rfl

def IsInt (value : Int) : Prop := -2147483648 ≤ value ∧ value < 2147483648

theorem storeInt_eq {value : Int} (isInt : IsInt value) : storeInt value = value := by
  obtain ⟨low, high⟩ := isInt
  have inLong : max (-9223372036854775808) (min value 9223372036854775807) = value := by omega
  rw [storeInt, inLong]
  exact Int.bmod_eq_of_le_mul_two (by omega) (by omega)

def Numeral.ofInt (value : Int) : Numeral where
  sign := if value < 0 then .minus else .unsigned
  digits := Nat.toDigits 10 value.natAbs
  nonempty := Nat.toDigits_ne_nil
  allDigits := fun _ member => Nat.isDigit_of_mem_toDigits (by decide) (by decide) member

theorem Numeral.text_ofInt (value : Int) : (Numeral.ofInt value).text = decimal value := by
  rw [Numeral.text, Numeral.ofInt, decimal]
  split <;> rfl

theorem Numeral.stored_ofInt {value : Int} (isInt : IsInt value) :
    (Numeral.ofInt value).stored = value := by
  have exact : signedValue (Numeral.ofInt value).sign (Numeral.ofInt value).digits = value := by
    simp only [Numeral.ofInt, signedValue, Nat.ofDigitChars_ten_toDigits]
    split
    · rename_i isMinus
      split at isMinus
      · omega
      · cases isMinus
    · rename_i notMinus
      split at notMinus
      · exact absurd rfl notMinus
      · omega
  rw [Numeral.stored, exact, storeInt_eq isInt]

/-- A process that can be written down and read again. -/
structure Writable (process : NamedEntry) : Prop where
  noNull : '\x00' ∉ process.name
  fits : process.name.length < PROCESS_NAME_MAX
  arrivalTime : IsInt process.entry.arrivalTime
  timeNeeded : IsInt process.entry.timeNeeded

def NamedEntry.line (process : NamedEntry) : Line :=
  .complete process.name (.ofInt process.entry.arrivalTime) (.ofInt process.entry.timeNeeded)

/-- The words of an input file. -/
def fileWords (strategy : ScheduleStrategy) (processes : List NamedEntry) : List (List Char) :=
  strategyName strategy :: decimal processes.length ::
    processes.flatMap fun process =>
      [process.name, decimal process.entry.arrivalTime, decimal process.entry.timeNeeded]

theorem flatMap_line (processes : List NamedEntry) :
    (processes.map NamedEntry.line).flatMap Line.words =
      processes.flatMap fun process =>
        [process.name, decimal process.entry.arrivalTime, decimal process.entry.timeNeeded] := by
  rw [List.flatMap_map]
  congr 1
  funext process
  simp only [NamedEntry.line, Line.words, Numeral.text_ofInt]

theorem linesEnd_line (processes : List NamedEntry) (trailing : List (List Char)) :
    LinesEnd (processes.map NamedEntry.line) trailing := by
  induction processes with
  | nil => trivial
  | cons process processes ih => exact ⟨trivial, ih⟩

theorem filled_line (unwritten : Nat → NamedEntry) {processes : List NamedEntry}
    (writable : ∀ process ∈ processes, Writable process) :
    filled unwritten (processes.map NamedEntry.line) processes.length = processes := by
  induction processes generalizing unwritten with
  | nil => rfl
  | cons process processes ih =>
      obtain ⟨first, others⟩ := List.forall_mem_cons.mp writable
      have whole : cString process.name = process.name := by
        apply List.takeWhile_eq_self_iff.mpr
        intro c member
        rw [bne_iff_ne]
        rintro rfl
        exact first.noNull member
      rw [List.length_cons, filled_succ, List.map_cons, List.tail_cons, ih _ others]
      change Line.fill (unwritten 0) process.line :: processes = _
      rw [NamedEntry.line, Line.fill, whole, Numeral.stored_ofInt first.arrivalTime,
        Numeral.stored_ofInt first.timeNeeded]

/-- What was written is read. -/
theorem readInput_written (unwritten : Unwritten) (strategy : ScheduleStrategy)
    {processes : List NamedEntry} {trailing : List (List Char)} {stdin : List Char}
    (cut : words isspace stdin = fileWords strategy processes ++ trailing)
    (writable : ∀ process ∈ processes, Writable process)
    (few : processes.length < 2147483648) :
    readInput unwritten stdin = .ok {
      currentStrategy := strategy
      numProcess := processes.length
      allProcessInfo := processes } := by
  have isCount : (Numeral.ofInt processes.length).stored = processes.length :=
    Numeral.stored_ofInt ⟨by omega, by omega⟩
  rw [fileWords, ← Numeral.text_ofInt, ← flatMap_line] at cut
  obtain ⟨later, cut', read⟩ := readInput_eq unwritten strategy _ cut
  have lines := readEntries_lines processes.length unwritten.processes _ cut'
    (linesEnd_line processes trailing) (List.length_map _).le
    (fun fewer => absurd fewer (by rw [List.length_map]; exact Nat.lt_irrefl _))
  have fit : NamesFit (processes.map NamedEntry.line) := by
    intro line member
    obtain ⟨process, isListed, rfl⟩ := List.mem_map.mp member
    exact (writable process isListed).fits
  rw [if_pos fit, filled_line unwritten.processes writable] at lines
  rw [read, isCount, Int.toNat_natCast, lines]
  rfl

end Input
end UserScheduler
