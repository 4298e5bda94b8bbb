/-
What time_calc.py accepts.

A line must hold the marker, and behind its first one three words: anything at
all, and two times.  A time is two integers with a dot between them, each with
or without a sign and with single underscores between its digits.  The script
stops at the first other line, and what comes behind it is never looked at.
-/

import UserScheduler.Lib.Machine
import UserScheduler.ProcessLog

namespace UserScheduler.ProcessLog

open Machines Tokens

/-! ### The format -/

/-- Two numbers with a dot in between. -/
def IsTime (text : List Char) (nsec : Int) : Prop :=
  ∃ secText nanoText sec nano, text = secText ++ '.' :: nanoText ∧
    Writes secText sec ∧ Writes nanoText nano ∧ nsec = nano + sec * 10 ^ 9

/-- A line, and what is printed for it.  Nobody checks that the first word
behind the marker is a pid. -/
def Accepted (line : List Char) (printed : List Char × TimeInfo) : Prop :=
  ∃ unmarked begin ending started stopped,
    split line = unmarked ++ [marker, printed.1, begin, ending] ∧ marker ∉ unmarked ∧
    IsTime begin started ∧ IsTime ending stopped ∧ printed.2 = { nsec := stopped - started }

/-! ### Times -/

theorem int_eq_ok {text : List Char} (solid : Solid isSpace text) {value : Int} :
    int text = .ok value ↔ Writes text value := by
  rw [int, solid.strip_eq, ← readDecimal_eq_some]
  cases readDecimal text with
  | none =>
      constructor
      · intro read
        cases read
      · intro read
        cases read
  | some found =>
      constructor
      · intro same
        exact congrArg some (Except.ok.inj same)
      · intro same
        exact congrArg Except.ok (Option.some.inj same)

theorem int_raises {text : List Char} {raised : PyError} (failed : int text = .error raised) :
    raised = .valueError := by
  rw [int] at failed
  split at failed
  · cases failed
  · exact (Except.error.inj failed).symm

theorem dot_not_mem {text : List Char} {value : Int} (writes : Writes text value) :
    '.' ∉ text := by
  intro member
  rcases writes.mem member with isPlus | isMinus | isUnderscore | isDigit
  · cases isPlus
  · cases isMinus
  · cases isUnderscore
  · cases isDigit

theorem timeInfo_eq_ok {text : List Char} (solid : Solid isSpace text) {time : TimeInfo} :
    timeInfo text = .ok time ↔ IsTime text time.nsec := by
  constructor
  · intro read
    rw [timeInfo] at read
    split at read
    · rename_i secText nanoText pieces
      have whole : secText ++ '.' :: nanoText = text := by
        have joined : ['.'].intercalate (text.splitOn '.') = text := List.intercalate_splitOn '.'
        rwa [pieces, List.intercalate_cons_cons, List.intercalate_singleton,
          List.append_assoc] at joined
      rw [← whole] at solid
      obtain ⟨nano, isNano, read⟩ := bind_eq_ok read
      obtain ⟨sec, isSec, read⟩ := bind_eq_ok read
      cases Except.ok.inj read
      exact ⟨secText, nanoText, sec, nano, whole.symm, (int_eq_ok solid.parts.1).mp isSec,
        (int_eq_ok solid.parts.2).mp isNano, rfl⟩
    · cases read
  · rintro ⟨secText, nanoText, sec, nano, rfl, isSec, isNano, isTime⟩
    have pieces : (secText ++ '.' :: nanoText).splitOn '.' = [secText, nanoText] := by
      rw [List.splitOn_append_cons_self_of_not_mem (dot_not_mem isSec),
        List.splitOn_eq_singleton (dot_not_mem isNano)]
    rw [timeInfo, pieces]
    simp only [(int_eq_ok solid.parts.1).mpr isSec, (int_eq_ok solid.parts.2).mpr isNano, ok_bind]
    rw [← isTime]
    rfl

theorem timeInfo_raises {text : List Char} {raised : PyError}
    (failed : timeInfo text = .error raised) : raised = .valueError := by
  rw [timeInfo] at failed
  split at failed
  · rcases bind_eq_error failed with inNano | ⟨nano, _, failed⟩
    · exact int_raises inNano
    · rcases bind_eq_error failed with inSec | ⟨sec, _, returned⟩
      · exact int_raises inSec
      · cases returned
  · exact (Except.error.inj failed).symm

/-! ### Lines -/

theorem lineFilter_unmarked {strings : List (List Char)} (unmarked : marker ∉ strings) :
    lineFilter strings = .error .stopIteration := by
  have passed : strings.dropWhile (fun x => x != marker) = [] := by
    rw [List.dropWhile_eq_nil_iff]
    intro x member
    rw [bne_iff_ne]
    exact fun isMarker => unmarked (isMarker ▸ member)
  rw [lineFilter, passed]

theorem exists_lineFilter {strings : List (List Char)} (marked : marker ∈ strings) :
    ∃ unmarked rest, strings = unmarked ++ marker :: rest ∧ marker ∉ unmarked ∧
      lineFilter strings = .ok rest := by
  obtain ⟨unmarked, rest, rfl, notBefore⟩ := List.eq_append_cons_of_mem marked
  exact ⟨unmarked, rest, rfl, notBefore, lineFilter_append notBefore rest⟩

theorem calcLine_unmarked {line : List Char} (unmarked : marker ∉ split line) :
    calcLine line = .error .stopIteration := by
  rw [calcLine, lineFilter_unmarked unmarked]
  rfl

theorem calcLine_eq_ok {line : List Char} {printed : List Char × TimeInfo} :
    calcLine line = .ok printed ↔ Accepted line printed := by
  have solid : ∀ word ∈ split line, Solid isSpace word := fun word member =>
    solid_of_mem_words member
  constructor
  · intro read
    by_cases marked : marker ∈ split line
    · obtain ⟨unmarked, rest, cut, notBefore, filtered⟩ := exists_lineFilter marked
      rw [calcLine, filtered, ok_bind] at read
      split at read
      · rename_i pid begin ending
        obtain ⟨stopped, isStopped, read⟩ := bind_eq_ok read
        obtain ⟨started, isStarted, read⟩ := bind_eq_ok read
        cases Except.ok.inj read
        rw [cut] at solid
        refine ⟨unmarked, begin, ending, started.nsec, stopped.nsec, cut, notBefore,
          (timeInfo_eq_ok (solid begin ?_)).mp isStarted,
          (timeInfo_eq_ok (solid ending ?_)).mp isStopped, rfl⟩
        · simp
        · simp
      · cases read
    · rw [calcLine_unmarked marked] at read
      cases read
  · rintro ⟨unmarked, begin, ending, started, stopped, cut, notBefore, isStarted, isStopped, times⟩
    rw [cut] at solid
    have readStarted : timeInfo begin = .ok { nsec := started } :=
      (timeInfo_eq_ok (solid begin (by simp))).mpr isStarted
    have readStopped : timeInfo ending = .ok { nsec := stopped } :=
      (timeInfo_eq_ok (solid ending (by simp))).mpr isStopped
    rw [calcLine, cut, lineFilter_append notBefore, ok_bind]
    simp only [readStarted, readStopped, ok_bind]
    exact congrArg Except.ok (Prod.ext rfl times.symm)

/-- The two ways in which a line is refused. -/
theorem calcLine_raises {line : List Char} {raised : PyError}
    (failed : calcLine line = .error raised) :
    raised = if marker ∈ split line then .valueError else .stopIteration := by
  by_cases marked : marker ∈ split line
  · obtain ⟨unmarked, rest, cut, notBefore, filtered⟩ := exists_lineFilter marked
    rw [if_pos marked]
    rw [calcLine, filtered, ok_bind] at failed
    split at failed
    · rcases bind_eq_error failed with inEnding | ⟨stopped, _, failed⟩
      · exact timeInfo_raises inEnding
      · rcases bind_eq_error failed with inBegin | ⟨started, _, returned⟩
        · exact timeInfo_raises inBegin
        · cases returned
    · exact (Except.error.inj failed).symm
  · rw [calcLine_unmarked marked] at failed
    rw [if_neg marked]
    exact (Except.error.inj failed).symm

/-! ### Whole logs -/

/-- A line as dmesg prints it, with every other character escaped.  Python's int
takes the digits of other scripts too, and no number of more than 4300 digits. -/
structure LogLine where
  text : List Char
  ascii : ∀ c ∈ text, c.toNat < 128
  short : text.length ≤ 4300

end UserScheduler.ProcessLog
