/-
Blank-separated tokens and decimal numerals.

A text is a list of characters.  `words` cuts it at runs of separators, and
`decimal` writes an integer without padding; the lemmas say that cutting undoes
joining and that `readDecimal` undoes `decimal`.

Nothing here names a particular program.
-/

import Mathlib.Data.List.DropRight

namespace Tokens

/-! ### Words -/

section Words

variable {char : Type} (isSpace : char → Bool)

/-- The pieces between separators, without the empty ones. -/
def words (text : List char) : List (List char) :=
  (text.splitOnP isSpace).filter fun piece => !piece.isEmpty

/-- Drops the separators at both ends. -/
def strip (text : List char) : List char := (text.dropWhile isSpace).rdropWhile isSpace

variable {isSpace}

theorem words_append_cons (before after : List char) {separator : char}
    (isSeparator : isSpace separator = true) :
    words isSpace (before ++ separator :: after) =
      words isSpace before ++ words isSpace after := by
  rw [words, List.splitOnP_append_cons before after isSeparator, List.filter_append]
  rfl

/-- A text with no separator in it. -/
def Solid (isSpace : char → Bool) (text : List char) : Prop := ∀ c ∈ text, isSpace c = false

theorem Solid.words_eq {text : List char} (solid : Solid isSpace text) (nonempty : text ≠ []) :
    words isSpace text = [text] := by
  rw [words, List.splitOnP_eq_singleton solid]
  simp [nonempty]

theorem Solid.words_cons {text : List char} (solid : Solid isSpace text) (nonempty : text ≠ [])
    {separator : char} (isSeparator : isSpace separator = true) (after : List char) :
    words isSpace (text ++ separator :: after) = text :: words isSpace after := by
  rw [words_append_cons text after isSeparator, solid.words_eq nonempty, List.singleton_append]

theorem Solid.append {text other : List char} (solid : Solid isSpace text)
    (solid' : Solid isSpace other) : Solid isSpace (text ++ other) := by
  intro c member
  rcases List.mem_append.mp member with inText | inOther
  · exact solid c inText
  · exact solid' c inOther

theorem Solid.cons {c : char} {text : List char} (notSpace : isSpace c = false)
    (solid : Solid isSpace text) : Solid isSpace (c :: text) := by
  intro other member
  rcases List.mem_cons.mp member with isFirst | inText
  · rw [isFirst]
    exact notSpace
  · exact solid other inText

theorem Solid.parts {text other : List char} {c : char} (solid : Solid isSpace (text ++ c :: other)) :
    Solid isSpace text ∧ Solid isSpace other :=
  ⟨fun found member => solid found (List.mem_append_left _ member),
    fun found member => solid found (List.mem_append_right _ (List.mem_cons_of_mem _ member))⟩

theorem Solid.strip_eq {text : List char} (solid : Solid isSpace text) :
    strip isSpace text = text := by
  have noneBefore : text.dropWhile isSpace = text := by
    cases text with
    | nil => rfl
    | cons first rest =>
        rw [List.dropWhile_cons_of_neg]
        simp [solid first List.mem_cons_self]
  rw [strip, noneBefore, List.rdropWhile_eq_self_iff]
  intro nonempty
  simp [solid _ (List.getLast_mem nonempty)]

/-- The longest front part with a property is known where it ends. -/
theorem takeWhile_dropWhile_append {property : char → Bool} {front behind : List char}
    (has : ∀ c ∈ front, property c = true) (stops : ∀ c ∈ behind.head?, property c = false) :
    (front ++ behind).takeWhile property = front ∧
      (front ++ behind).dropWhile property = behind := by
  rw [List.takeWhile_append_of_pos has, List.dropWhile_append_of_pos has]
  cases behind with
  | nil => exact ⟨List.append_nil front, rfl⟩
  | cons first rest =>
      have lacks : ¬ property first = true := Bool.eq_false_iff.mp (stops first rfl)
      rw [List.takeWhile_cons_of_neg lacks, List.dropWhile_cons_of_neg lacks]
      exact ⟨List.append_nil front, rfl⟩

/-- Separators in front do not matter. -/
theorem words_dropWhile (text : List char) :
    words isSpace (text.dropWhile isSpace) = words isSpace text := by
  induction text with
  | nil => rfl
  | cons first rest ih =>
      cases isSeparator : isSpace first with
      | false => rw [List.dropWhile_cons_of_neg (Bool.eq_false_iff.mp isSeparator)]
      | true =>
          rw [List.dropWhile_cons_of_pos isSeparator, ih]
          exact (words_append_cons [] rest isSeparator).symm

/-- A text that begins with its first word. -/
theorem words_takeWhile {first : char} (notSpace : isSpace first = false) (rest : List char) :
    words isSpace (first :: rest) =
      (first :: rest).takeWhile (!isSpace ·) ::
        words isSpace ((first :: rest).dropWhile (!isSpace ·)) := by
  have solid : Solid isSpace ((first :: rest).takeWhile (!isSpace ·)) := by
    intro c member
    simpa using List.mem_takeWhile_imp member
  have nonempty : (first :: rest).takeWhile (!isSpace ·) ≠ [] := by
    rw [List.takeWhile_cons_of_pos (by rw [notSpace]; rfl)]
    exact List.cons_ne_nil _ _
  have whole := List.takeWhile_append_dropWhile (p := (!isSpace ·)) (l := first :: rest)
  cases behind : (first :: rest).dropWhile (!isSpace ·) with
  | nil =>
      rw [behind, List.append_nil] at whole
      rw [whole] at solid nonempty ⊢
      rw [solid.words_eq nonempty]
      rfl
  | cons separator after =>
      have isSeparator : isSpace separator = true := by
        have stops := List.head?_dropWhile_not (!isSpace ·) (first :: rest)
        rw [behind] at stops
        simpa using stops
      rw [behind] at whole
      conv => lhs; rw [← whole]
      rw [solid.words_cons nonempty isSeparator]
      exact congrArg _ (words_append_cons [] after isSeparator).symm

/-- Where separators have been skipped there is no other one. -/
theorem notSpace_of_dropWhile {text rest : List char} {first : char}
    (start : text.dropWhile isSpace = first :: rest) : isSpace first = false := by
  have stops := List.head?_dropWhile_not isSpace text
  rwa [start] at stops

/-- The first word of a text, and what stands behind it. -/
theorem words_eq_cons {text word : List char} {others : List (List char)}
    (cut : words isSpace text = word :: others) :
    ∃ after, text.dropWhile isSpace = word ++ after ∧ words isSpace after = others ∧
      word ≠ [] ∧ Solid isSpace word ∧ ∀ c ∈ after.head?, isSpace c = true := by
  rw [← words_dropWhile] at cut
  cases start : text.dropWhile isSpace with
  | nil =>
      rw [start] at cut
      cases cut
  | cons first rest =>
      have notSpace := notSpace_of_dropWhile start
      rw [start, words_takeWhile notSpace] at cut
      obtain ⟨rfl, rfl⟩ := List.cons.inj cut
      refine ⟨_, List.takeWhile_append_dropWhile.symm, rfl, ?_, ?_, ?_⟩
      · rw [List.takeWhile_cons_of_pos (by rw [notSpace]; rfl)]
        exact List.cons_ne_nil _ _
      · intro c member
        simpa using List.mem_takeWhile_imp member
      · intro c isHead
        have stops := List.head?_dropWhile_not (!isSpace ·) (first :: rest)
        rw [Option.mem_def.mp isHead] at stops
        simpa using stops

theorem words_eq_nil {text : List char} (cut : words isSpace text = []) :
    text.dropWhile isSpace = [] := by
  rw [← words_dropWhile] at cut
  cases start : text.dropWhile isSpace with
  | nil => rfl
  | cons first rest =>
      rw [start, words_takeWhile (notSpace_of_dropWhile start)] at cut
      cases cut

theorem solid_of_mem_words {text word : List char} (member : word ∈ words isSpace text) :
    Solid isSpace word := by
  generalize cut : words isSpace text = pieces at member
  induction pieces generalizing text with
  | nil => cases member
  | cons first others ih =>
      obtain ⟨after, _, isOthers, _, solid, _⟩ := words_eq_cons cut
      rcases List.mem_cons.mp member with isFirst | inOthers
      · rw [isFirst]
        exact solid
      · exact ih isOthers inOthers

end Words

/-! ### Decimals -/

/-- Plain decimal notation. -/
def decimal (value : Int) : List Char :=
  if value < 0 then '-' :: Nat.toDigits 10 value.natAbs else Nat.toDigits 10 value.natAbs

/-- Digits with at most one underscore between two of them. -/
def readDigits (text : List Char) : Option Nat :=
  let groups := text.splitOn '_'
  if groups.all fun group => !group.isEmpty && group.all Char.isDigit then
    some (Nat.ofDigitChars 10 groups.flatten 0)
  else none

/-- Digits with an optional sign. -/
def readDecimal : List Char → Option Int
  | '-' :: digits => (readDigits digits).map fun value : Nat => -(value : Int)
  | '+' :: digits => (readDigits digits).map Int.ofNat
  | digits => (readDigits digits).map Int.ofNat

theorem readDigits_toDigits (value : Nat) : readDigits (Nat.toDigits 10 value) = some value := by
  have oneGroup : (Nat.toDigits 10 value).splitOn '_' = [Nat.toDigits 10 value] :=
    List.splitOn_eq_singleton Nat.underscore_not_in_toDigits
  have allDigits : (Nat.toDigits 10 value).all Char.isDigit = true := by
    rw [List.all_eq_true]
    intro c member
    exact Nat.isDigit_of_mem_toDigits (by decide) (by decide) member
  simp [readDigits, oneGroup, allDigits, Nat.toDigits_ne_nil, Nat.ofDigitChars_ten_toDigits]

/-- Without a sign in front, digits are read as they stand. -/
theorem readDecimal_of_isDigit {first : Char} {rest : List Char} (isDigit : first.isDigit = true) :
    readDecimal (first :: rest) = (readDigits (first :: rest)).map Int.ofNat := by
  unfold readDecimal
  split
  · rename_i isMinus
    cases (List.cons.inj isMinus).1
    cases isDigit
  · rename_i isPlus
    cases (List.cons.inj isPlus).1
    cases isDigit
  · rfl

theorem readDecimal_decimal (value : Int) : readDecimal (decimal value) = some value := by
  unfold decimal
  split
  · rename_i negative
    rw [readDecimal, readDigits_toDigits]
    simp only [Option.map_some, Option.some.injEq]
    omega
  · rename_i notNegative
    obtain ⟨first, rest, isCons⟩ :=
      List.exists_cons_of_ne_nil (Nat.toDigits_ne_nil (n := value.natAbs) (b := 10))
    have isDigit : first.isDigit = true := by
      apply Nat.isDigit_of_mem_toDigits (n := value.natAbs) (b := 10) (by decide) (by decide)
      rw [isCons]
      exact List.mem_cons_self
    rw [isCons, readDecimal_of_isDigit isDigit, ← isCons, readDigits_toDigits]
    simp only [Option.map_some, Option.some.injEq, Int.ofNat_eq_natCast]
    omega

theorem decimal_ne_nil (value : Int) : decimal value ≠ [] := by
  unfold decimal
  split
  · exact List.cons_ne_nil _ _
  · exact Nat.toDigits_ne_nil

/-- A numeral is made of digits and a sign. -/
theorem mem_decimal {value : Int} {c : Char} (member : c ∈ decimal value) :
    c = '-' ∨ c.isDigit = true := by
  unfold decimal at member
  split at member
  · rcases List.mem_cons.mp member with isSign | isDigit
    · exact Or.inl isSign
    · exact Or.inr (Nat.isDigit_of_mem_toDigits (by decide) (by decide) isDigit)
  · exact Or.inr (Nat.isDigit_of_mem_toDigits (by decide) (by decide) member)

/-! ### What is read as a number -/

/-- Groups of digits joined by underscores, and their value. -/
def WritesDigits (text : List Char) (value : Nat) : Prop :=
  ∃ groups : List (List Char), groups ≠ [] ∧
    (∀ group ∈ groups, group ≠ [] ∧ ∀ c ∈ group, c.isDigit = true) ∧
    text = ['_'].intercalate groups ∧ value = Nat.ofDigitChars 10 groups.flatten 0

/-- A number with an optional sign. -/
inductive Writes : List Char → Int → Prop where
  | plain {text : List Char} {value : Nat} : WritesDigits text value → Writes text value
  | plus {text : List Char} {value : Nat} : WritesDigits text value → Writes ('+' :: text) value
  | minus {text : List Char} {value : Nat} : WritesDigits text value → Writes ('-' :: text) (-value)

theorem readDigits_eq_some {text : List Char} {value : Nat} :
    readDigits text = some value ↔ WritesDigits text value := by
  constructor
  · intro read
    simp only [readDigits] at read
    split at read
    · rename_i grouped
      refine ⟨text.splitOn '_', List.splitOn_ne_nil _ _, ?_,
        (List.intercalate_splitOn '_').symm, (Option.some.inj read).symm⟩
      intro group member
      simpa using List.all_eq_true.mp grouped group member
    · cases read
  · rintro ⟨groups, nonempty, areDigits, rfl, rfl⟩
    have noUnderscore : ∀ group ∈ groups, '_' ∉ group := by
      intro group member isUnderscore
      cases (areDigits group member).2 _ isUnderscore
    have grouped : (groups.all fun group => !group.isEmpty && group.all Char.isDigit) = true := by
      rw [List.all_eq_true]
      intro group member
      simpa using areDigits group member
    simp only [readDigits, List.splitOn_intercalate '_' noUnderscore nonempty, grouped, if_true]

/-- The digits of a number begin with a digit. -/
theorem WritesDigits.head_isDigit {text : List Char} {value : Nat}
    (writes : WritesDigits text value) :
    ∃ first rest, text = first :: rest ∧ first.isDigit = true := by
  obtain ⟨groups, nonempty, areDigits, rfl, _⟩ := writes
  cases groups with
  | nil => exact absurd rfl nonempty
  | cons group others =>
      obtain ⟨notEmpty, digits⟩ := areDigits group List.mem_cons_self
      cases group with
      | nil => exact absurd rfl notEmpty
      | cons first rest =>
          exact ⟨first, _, List.intercalate_cons_cons_left, digits first List.mem_cons_self⟩

theorem mem_intercalate {char : Type} {separator c : char} {groups : List (List char)}
    (member : c ∈ [separator].intercalate groups) :
    c = separator ∨ ∃ group ∈ groups, c ∈ group := by
  induction groups with
  | nil => cases member
  | cons group others ih =>
      have inOthers (found : c ∈ [separator].intercalate others) :
          c = separator ∨ ∃ other ∈ group :: others, c ∈ other := by
        rcases ih found with isSeparator | ⟨other, inRest, inOther⟩
        · exact Or.inl isSeparator
        · exact Or.inr ⟨other, List.mem_cons_of_mem group inRest, inOther⟩
      cases others with
      | nil =>
          rw [List.intercalate_singleton] at member
          exact Or.inr ⟨group, List.mem_cons_self, member⟩
      | cons other others =>
          rw [List.intercalate_cons_cons, List.append_assoc] at member
          rcases List.mem_append.mp member with inGroup | behind
          · exact Or.inr ⟨group, List.mem_cons_self, inGroup⟩
          · rcases List.mem_cons.mp behind with isSeparator | found
            · exact Or.inl isSeparator
            · exact inOthers found

theorem readDecimal_eq_some {text : List Char} {value : Int} :
    readDecimal text = some value ↔ Writes text value := by
  constructor
  · intro read
    unfold readDecimal at read
    split at read
    · obtain ⟨digits, isRead, rfl⟩ := Option.map_eq_some_iff.mp read
      exact .minus (readDigits_eq_some.mp isRead)
    · obtain ⟨digits, isRead, rfl⟩ := Option.map_eq_some_iff.mp read
      exact .plus (readDigits_eq_some.mp isRead)
    · obtain ⟨digits, isRead, rfl⟩ := Option.map_eq_some_iff.mp read
      exact .plain (readDigits_eq_some.mp isRead)
  · intro writes
    cases writes with
    | plain digits =>
        obtain ⟨first, rest, rfl, isDigit⟩ := digits.head_isDigit
        rw [readDecimal_of_isDigit isDigit, readDigits_eq_some.mpr digits]
        rfl
    | plus digits =>
        rw [readDecimal, readDigits_eq_some.mpr digits]
        rfl
    | minus digits =>
        rw [readDecimal, readDigits_eq_some.mpr digits]
        rfl

/-- No other characters stand in a number. -/
theorem Writes.mem {text : List Char} {value : Int} (writes : Writes text value) {c : Char}
    (member : c ∈ text) : c = '+' ∨ c = '-' ∨ c = '_' ∨ c.isDigit = true := by
  have inDigits {text : List Char} {value : Nat} (digits : WritesDigits text value)
      (member : c ∈ text) : c = '_' ∨ c.isDigit = true := by
    obtain ⟨groups, _, areDigits, rfl, _⟩ := digits
    rcases mem_intercalate member with isUnderscore | ⟨group, inGroups, inGroup⟩
    · exact Or.inl isUnderscore
    · exact Or.inr ((areDigits group inGroups).2 c inGroup)
  cases writes with
  | plain digits => exact Or.inr (Or.inr (inDigits digits member))
  | plus digits =>
      rcases List.mem_cons.mp member with isSign | inText
      · exact Or.inl isSign
      · exact Or.inr (Or.inr (inDigits digits inText))
  | minus digits =>
      rcases List.mem_cons.mp member with isSign | inText
      · exact Or.inr (Or.inl isSign)
      · exact Or.inr (Or.inr (inDigits digits inText))

end Tokens
