/-
Lining up items that must not stand too early.

Places are counted from one.  `early place item` forbids an item a place, and an
item that is allowed one place is allowed every later one.  The last of a line
may be anyone.  A line exists exactly if at no place too many items still have
to come.

Nothing here names a particular program.
-/

import Mathlib.Data.List.Basic

namespace LineUp

variable {item : Type} {early : Nat → item → Prop}

/-- Everyone but the last stands where he may, the first at `place + 1`. -/
def Admissible (early : Nat → item → Prop) : Nat → List item → Prop
  | _, [] => True
  | _, [_] => True
  | place, first :: second :: rest =>
      ¬ early (place + 1) first ∧ Admissible early (place + 1) (second :: rest)

theorem admissible_cons {place : Nat} {first : item} {rest : List item} (more : rest ≠ []) :
    Admissible early place (first :: rest) ↔
      ¬ early (place + 1) first ∧ Admissible early (place + 1) rest := by
  cases rest with
  | nil => exact absurd rfl more
  | cons second others => rfl

/-- An allowed place allows all later ones. -/
def Patient (early : Nat → item → Prop) : Prop :=
  ∀ place item, early (place + 1) item → early place item

theorem Patient.mono (patient : Patient early) {place : Nat} {member : item} (distance : Nat)
    (late : early (place + distance) member) : early place member := by
  induction distance with
  | zero => exact late
  | succ distance ih => exact ih (patient (place + distance) member late)

theorem admissible_of_none (patient : Patient early) {place : Nat} {line : List item}
    (nobody : ∀ member ∈ line, ¬ early (place + 1) member) : Admissible early place line := by
  induction line generalizing place with
  | nil => trivial
  | cons first rest ih =>
      by_cases more : rest = []
      · rw [more]
        trivial
      · rw [admissible_cons more]
        refine ⟨nobody first List.mem_cons_self, ih ?_⟩
        intro member inRest tooEarly
        exact nobody member (List.mem_cons_of_mem first inRest)
          (patient (place + 1) member tooEarly)

/-- Who stands before the last is not too early for the last place either. -/
theorem Admissible.not_early (patient : Patient early) {place : Nat} {line : List item}
    (admissible : Admissible early place line) :
    ∀ member ∈ line.dropLast, ¬ early (place + line.length) member := by
  induction line generalizing place with
  | nil =>
      intro member impossible
      cases impossible
  | cons first rest ih =>
      by_cases more : rest = []
      · rw [more]
        intro member impossible
        cases impossible
      · obtain ⟨allowed, others⟩ := (admissible_cons more).mp admissible
        rw [List.dropLast_cons_of_ne_nil more, List.length_cons, Nat.add_comm rest.length,
          ← Nat.add_assoc]
        intro member inLine
        rcases List.mem_cons.mp inLine with isFirst | inRest
        · intro tooEarly
          rw [isFirst] at tooEarly
          exact allowed (patient.mono rest.length tooEarly)
        · exact ih others member inRest

/-- So only one of them can still be too early there: the last. -/
theorem Admissible.early_unique (patient : Patient early) {place : Nat} {line : List item}
    (admissible : Admissible early place line) {first second : item} (firstIn : first ∈ line)
    (secondIn : second ∈ line) (firstEarly : early (place + line.length) first)
    (secondEarly : early (place + line.length) second) : first = second := by
  have nonempty : line ≠ [] := List.ne_nil_of_mem firstIn
  have isLast : ∀ member ∈ line, early (place + line.length) member →
      member = line.getLast nonempty := by
    intro member inLine tooEarly
    rw [← List.dropLast_append_getLast nonempty, List.mem_append, List.mem_singleton] at inLine
    exact inLine.resolve_left fun before => admissible.not_early patient member before tooEarly
  rw [isLast first firstIn firstEarly, isLast second secondIn secondEarly]

section Counting

variable [∀ place, DecidablePred (early place)]

/-- Whom the last place comes too early for does not depend on the line. -/
theorem Admissible.find_eq (patient : Patient early) {place : Nat} {line other : List item}
    (isPerm : line.Perm other) (admissible : Admissible early place other) :
    line.find? (fun member => early (place + line.length) member) =
      other.find? (fun member => early (place + other.length) member) := by
  rw [← isPerm.length_eq]
  cases found : line.find? (fun member => early (place + line.length) member) with
  | none =>
      rw [List.find?_eq_none] at found
      symm
      rw [List.find?_eq_none]
      intro member inOther
      exact found member (isPerm.mem_iff.mpr inOther)
  | some late =>
      have tooEarly : early (place + line.length) late := by
        simpa using List.find?_some found
      have inOther : late ∈ other := isPerm.mem_iff.mp (List.mem_of_find?_eq_some found)
      cases otherFound : other.find? (fun member => early (place + line.length) member) with
      | none =>
          rw [List.find?_eq_none] at otherFound
          exact absurd (by simpa using tooEarly) (otherFound late inOther)
      | some otherLate =>
          have alsoEarly : early (place + line.length) otherLate := by
            simpa using List.find?_some otherFound
          rw [isPerm.length_eq] at tooEarly alsoEarly
          rw [admissible.early_unique patient inOther
            (List.mem_of_find?_eq_some otherFound) tooEarly alsoEarly]

theorem Admissible.count_le (patient : Patient early) {place : Nat} {line : List item}
    (admissible : Admissible early place line) (ahead : Nat) (inside : ahead < line.length) :
    line.countP (fun member => early (place + ahead) member) ≤ line.length - ahead := by
  induction ahead generalizing place line with
  | zero => exact List.countP_le_length
  | succ ahead ih =>
      cases line with
      | nil => exact absurd inside (Nat.not_lt_zero _)
      | cons first rest =>
          have more : rest ≠ [] := by
            intro isEmpty
            rw [isEmpty, List.length_singleton] at inside
            omega
          obtain ⟨allowed, others⟩ := (admissible_cons more).mp admissible
          have notCounted : ¬ early (place + (ahead + 1)) first := by
            intro tooEarly
            rw [Nat.add_comm ahead, ← Nat.add_assoc] at tooEarly
            exact allowed (patient.mono ahead tooEarly)
          have counted := ih others (Nat.lt_of_succ_lt_succ inside)
          rw [Nat.add_assoc, Nat.add_comm 1] at counted
          rw [List.countP_cons_of_neg (by simpa using notCounted), List.length_cons,
            Nat.add_sub_add_right]
          exact counted

/-- Any allowed first item leaves a line for the others. -/
theorem exists_admissible (place : Nat) (items : List item)
    (room : ∀ ahead, 0 < ahead → ahead < items.length →
      items.countP (fun member => early (place + ahead) member) ≤ items.length - ahead) :
    ∃ line, line.Perm items ∧ Admissible early place line := by
  induction size : items.length generalizing place items with
  | zero =>
      rw [List.length_eq_zero_iff.mp size]
      exact ⟨[], List.Perm.refl _, trivial⟩
  | succ count ih =>
      rcases Nat.eq_zero_or_pos count with single | several
      · refine ⟨items, List.Perm.refl _, ?_⟩
        rw [single] at size
        obtain ⟨only, rfl⟩ := List.length_eq_one_iff.mp size
        trivial
      · have notAll : ∃ first ∈ items, ¬ early (place + 1) first := by
          by_contra all
          have everyone : items.countP (fun member => early (place + 1) member) = items.length := by
            rw [List.countP_eq_length]
            intro member inItems
            by_contra allowed
            exact all ⟨member, inItems, by simpa using allowed⟩
          have counted := room 1 Nat.zero_lt_one (by omega)
          omega
        obtain ⟨first, inItems, allowed⟩ := notAll
        obtain ⟨before, after, rfl⟩ := List.append_of_mem inItems
        rw [List.length_append, List.length_cons] at size room
        have length : (before ++ after).length = count := by
          rw [List.length_append]
          omega
        have leaves : ∀ ahead, 0 < ahead → ahead < (before ++ after).length →
            (before ++ after).countP (fun member => early (place + 1 + ahead) member) ≤
              (before ++ after).length - ahead := by
          intro ahead positive inside
          have counted := room (ahead + 1) (Nat.succ_pos ahead) (by omega)
          have fewer := (List.Sublist.append (List.Sublist.refl before)
            (List.sublist_cons_self first after)).countP_le
              (p := fun member => decide (early (place + (ahead + 1)) member))
          rw [Nat.add_assoc, Nat.add_comm 1]
          omega
        obtain ⟨line, isPerm, admissible⟩ := ih (place + 1) (before ++ after) leaves length
        have more : line ≠ [] := by
          intro isEmpty
          rw [isEmpty] at isPerm
          have sameLength := isPerm.length_eq
          rw [length, List.length_nil] at sameLength
          omega
        refine ⟨first :: line, ?_, (admissible_cons more).mpr ⟨allowed, admissible⟩⟩
        exact (isPerm.cons first).trans List.perm_middle.symm

theorem not_admissible_iff (patient : Patient early) (items : List item) :
    (∀ line, line.Perm items → ¬ Admissible early 0 line) ↔
      ∃ place, 0 < place ∧ place < items.length ∧
        items.length - place < items.countP (fun member => early place member) := by
  constructor
  · intro never
    by_contra enough
    have room : ∀ ahead, 0 < ahead → ahead < items.length →
        items.countP (fun member => early (0 + ahead) member) ≤ items.length - ahead := by
      intro ahead positive inside
      rw [Nat.zero_add]
      by_contra crowded
      exact enough ⟨ahead, positive, inside, Nat.lt_of_not_le crowded⟩
    obtain ⟨line, isPerm, admissible⟩ := exists_admissible 0 items room
    exact never line isPerm admissible
  · rintro ⟨place, _, inside, crowded⟩ line isPerm admissible
    have counted := admissible.count_le patient place (isPerm.length_eq ▸ inside)
    rw [Nat.zero_add, isPerm.countP_eq, isPerm.length_eq] at counted
    omega

end Counting

/-- Every order will do exactly if everybody may come first. -/
theorem admissible_iff (patient : Patient early) (items : List item) :
    (∀ line, line.Perm items → Admissible early 0 line) ↔
      items.length ≤ 1 ∨ ∀ member ∈ items, ¬ early 1 member := by
  constructor
  · intro always
    by_cases few : items.length ≤ 1
    · exact Or.inl few
    · right
      intro member inItems
      obtain ⟨before, after, rfl⟩ := List.append_of_mem inItems
      have more : before ++ after ≠ [] := by
        intro isEmpty
        have isShort := congrArg List.length isEmpty
        rw [List.length_append, List.length_nil] at isShort
        rw [List.length_append, List.length_cons] at few
        omega
      have admissible := always (member :: (before ++ after)) List.perm_middle.symm
      exact ((admissible_cons more).mp admissible).1
  · intro free line isPerm
    rcases free with few | nobody
    · rw [← isPerm.length_eq] at few
      cases line with
      | nil => trivial
      | cons first rest =>
          cases rest with
          | nil => trivial
          | cons second others =>
              rw [List.length_cons, List.length_cons] at few
              omega
    · apply admissible_of_none patient
      intro member inLine
      exact nobody member (isPerm.mem_iff.mp inLine)

end LineUp
