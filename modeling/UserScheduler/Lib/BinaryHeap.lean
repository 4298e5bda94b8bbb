/-
Array-based binary min-heaps over an arbitrary keyed type.

Cells are a total function of the index, of which the first `size` are in use;
what lies beyond is never consulted.  Elements are compared through a key in a
linear order, so equal keys are allowed and the heap is a priority queue of a
multiset.  The two sifts repair a single misplaced index.  Their loop
invariants, `UpOrdered` and `DownOrdered`, keep the order everywhere else and
remember how the neighbours of the misplaced index compare across it.
-/

import Mathlib.Data.Multiset.Range
import Mathlib.Data.Multiset.AddSub
import Mathlib.Logic.Equiv.Basic
import Mathlib.Order.Defs.LinearOrder

namespace BinaryHeap

variable {element key : Type} [LinearOrder key]

def parent (index : Nat) : Nat := (index - 1) / 2

theorem parent_lt {index : Nat} (positive : 0 < index) : parent index < index := by
  unfold parent
  omega

theorem parent_eq_iff {child index : Nat} (positive : 0 < child) :
    parent child = index ↔ child = 2 * index + 1 ∨ child = 2 * index + 2 := by
  unfold parent
  omega

/-! ### Exchanging two cells -/

def swap (cells : Nat → element) (left right : Nat) : Nat → element :=
  fun index =>
    if index = left then cells right else if index = right then cells left else cells index

@[simp] theorem swap_left (cells : Nat → element) (left right : Nat) :
    swap cells left right left = cells right := if_pos rfl

@[simp] theorem swap_right (cells : Nat → element) (left right : Nat) :
    swap cells left right right = cells left := by
  unfold swap
  by_cases same : right = left
  · rw [if_pos same, same]
  · rw [if_neg same, if_pos rfl]

theorem swap_other (cells : Nat → element) {left right index : Nat}
    (notLeft : index ≠ left) (notRight : index ≠ right) :
    swap cells left right index = cells index := by
  unfold swap
  rw [if_neg notLeft, if_neg notRight]

/-- The elements of the first `size` cells. -/
def bag (cells : Nat → element) (size : Nat) : Multiset element :=
  (Multiset.range size).map cells

theorem bag_succ (cells : Nat → element) (size : Nat) :
    bag cells (size + 1) = cells size ::ₘ bag cells size := by
  simp only [bag, Multiset.range_succ, Multiset.map_cons]

theorem bag_congr {cells other : Nat → element} {size : Nat}
    (same : ∀ index, index < size → cells index = other index) :
    bag cells size = bag other size := by
  apply Multiset.map_congr rfl
  intro index member
  exact same index (Multiset.mem_range.mp member)

theorem mem_bag {cells : Nat → element} {size : Nat} {item : element} :
    item ∈ bag cells size ↔ ∃ index, index < size ∧ cells index = item := by
  simp only [bag, Multiset.mem_map, Multiset.mem_range]

theorem bag_swap (cells : Nat → element) {size left right : Nat}
    (leftLt : left < size) (rightLt : right < size) :
    bag (swap cells left right) size = bag cells size := by
  have exchanged : swap cells left right = cells ∘ Equiv.swap left right := by
    funext index
    simp only [swap, Function.comp_apply, Equiv.swap_apply_def]
    split
    · rfl
    · split <;> rfl
  have inRange : ∀ index, index < size → Equiv.swap left right index < size := by
    intro index indexLt
    rw [Equiv.swap_apply_def]
    split
    · exact rightLt
    · split
      · exact leftLt
      · exact indexLt
  have indices : (Multiset.range size).map (Equiv.swap left right) = Multiset.range size := by
    apply (Multiset.Nodup.ext ((Multiset.nodup_range size).map (Equiv.injective _))
      (Multiset.nodup_range size)).mpr
    intro index
    simp only [Multiset.mem_map, Multiset.mem_range]
    constructor
    · rintro ⟨source, sourceLt, rfl⟩
      exact inRange source sourceLt
    · intro indexLt
      exact ⟨_, inRange index indexLt, Equiv.swap_apply_self left right index⟩
  calc bag (swap cells left right) size
      = ((Multiset.range size).map (Equiv.swap left right)).map cells := by
        rw [exchanged, Multiset.map_map, bag]
    _ = bag cells size := by rw [indices, bag]

/-! ### Order -/

/-- No element is smaller than its parent. -/
def Ordered (keyOf : element → key) (cells : Nat → element) (size : Nat) : Prop :=
  ∀ index, 0 < index → index < size →
    keyOf (cells (parent index)) ≤ keyOf (cells index)

theorem Ordered.root_le {keyOf : element → key} {cells : Nat → element} {size : Nat}
    (ordered : Ordered keyOf cells size) :
    ∀ index, index < size → keyOf (cells 0) ≤ keyOf (cells index) := by
  intro index
  induction index using Nat.strongRecOn with
  | ind index ih =>
      intro inRange
      rcases Nat.eq_zero_or_pos index with isRoot | positive
      · rw [isRoot]
      · have before := parent_lt positive
        exact le_trans (ih (parent index) before (by omega)) (ordered index positive inRange)

theorem Ordered.root_le_of_mem {keyOf : element → key} {cells : Nat → element} {size : Nat}
    (ordered : Ordered keyOf cells size) {item : element} (member : item ∈ bag cells size) :
    keyOf (cells 0) ≤ keyOf item := by
  obtain ⟨index, inRange, rfl⟩ := mem_bag.mp member
  exact ordered.root_le index inRange

/-- Lowering the key of the root alone keeps the order. -/
theorem Ordered.lower_root {keyOf lowered : element → key} {cells : Nat → element}
    {size : Nat} (ordered : Ordered keyOf cells size)
    (root : lowered (cells 0) ≤ keyOf (cells 0))
    (others : ∀ index, 0 < index → index < size →
      lowered (cells index) = keyOf (cells index)) :
    Ordered lowered cells size := by
  intro index positive inRange
  rw [others index positive inRange]
  have before := parent_lt positive
  rcases Nat.eq_zero_or_pos (parent index) with isRoot | parentPositive
  · rw [isRoot]
    exact le_trans root (ordered.root_le index inRange)
  · rw [others (parent index) parentPositive (by omega)]
    exact ordered index positive inRange

/-- Order everywhere but on the edge into `index`. -/
structure UpOrdered (keyOf : element → key) (cells : Nat → element) (size index : Nat) :
    Prop where
  elsewhere : ∀ other, 0 < other → other < size → other ≠ index →
    keyOf (cells (parent other)) ≤ keyOf (cells other)
  across : ∀ child, 0 < child → child < size → parent child = index → 0 < index →
    keyOf (cells (parent index)) ≤ keyOf (cells child)

/-- Order everywhere but on the edges out of `index`. -/
structure DownOrdered (keyOf : element → key) (cells : Nat → element) (size index : Nat) :
    Prop where
  elsewhere : ∀ other, 0 < other → other < size → parent other ≠ index →
    keyOf (cells (parent other)) ≤ keyOf (cells other)
  across : ∀ child, 0 < child → child < size → parent child = index → 0 < index →
    keyOf (cells (parent index)) ≤ keyOf (cells child)

/-! ### Sifting up -/

def siftUp (keyOf : element → key) (cells : Nat → element) (index : Nat) : Nat → element :=
  if 0 < index then
    if keyOf (cells index) < keyOf (cells (parent index)) then
      siftUp keyOf (swap cells (parent index) index) (parent index)
    else cells
  else cells
termination_by index
decreasing_by exact parent_lt ‹_›

theorem siftUp_step {keyOf : element → key} {cells : Nat → element} {index : Nat}
    (positive : 0 < index) (smaller : keyOf (cells index) < keyOf (cells (parent index))) :
    siftUp keyOf cells index =
      siftUp keyOf (swap cells (parent index) index) (parent index) := by
  rw [siftUp, if_pos positive, if_pos smaller]

theorem siftUp_stop {keyOf : element → key} {cells : Nat → element} {index : Nat}
    (stopped : 0 < index → ¬ keyOf (cells index) < keyOf (cells (parent index))) :
    siftUp keyOf cells index = cells := by
  rw [siftUp]
  split
  · rename_i positive
    rw [if_neg (stopped positive)]
  · rfl

theorem bag_siftUp (keyOf : element → key) (cells : Nat → element) (size index : Nat)
    (inRange : index < size) : bag (siftUp keyOf cells index) size = bag cells size := by
  fun_induction siftUp keyOf cells index with
  | case1 cells index positive smaller ih =>
      have before := parent_lt positive
      rw [ih (by omega), bag_swap cells (by omega) inRange]
  | case2 => rfl
  | case3 => rfl

theorem UpOrdered.swap {keyOf : element → key} {cells : Nat → element} {size index : Nat}
    (ready : UpOrdered keyOf cells size index) (positive : 0 < index) (inRange : index < size)
    (smaller : keyOf (cells index) < keyOf (cells (parent index))) :
    UpOrdered keyOf (BinaryHeap.swap cells (parent index) index) size (parent index) := by
  have before := parent_lt positive
  have aboveParent : 0 < parent index →
      keyOf (cells (parent (parent index))) ≤ keyOf (cells (parent index)) :=
    fun parentPositive => ready.elsewhere (parent index) parentPositive (by omega) (by omega)
  constructor
  · intro other otherPositive otherLt different
    by_cases isIndex : other = index
    · rw [isIndex, swap_left, swap_right]
      exact le_of_lt smaller
    · rw [swap_other cells different isIndex]
      by_cases underParent : parent other = parent index
      · -- the sibling of `index` now hangs below the smaller element
        rw [underParent, swap_left]
        have sibling := ready.elsewhere other otherPositive otherLt isIndex
        rw [underParent] at sibling
        exact le_of_lt (lt_of_lt_of_le smaller sibling)
      · by_cases underIndex : parent other = index
        · rw [underIndex, swap_right]
          exact ready.across other otherPositive otherLt underIndex positive
        · rw [swap_other cells underParent underIndex]
          exact ready.elsewhere other otherPositive otherLt isIndex
  · intro child childPositive childLt underParent parentPositive
    have grand := parent_lt parentPositive
    rw [swap_other cells (by omega : parent (parent index) ≠ parent index) (by omega)]
    have childAbove := parent_lt childPositive
    by_cases isIndex : child = index
    · rw [isIndex, swap_right]
      exact aboveParent parentPositive
    · rw [swap_other cells (by omega) isIndex]
      have edge := ready.elsewhere child childPositive childLt isIndex
      rw [underParent] at edge
      exact le_trans (aboveParent parentPositive) edge

theorem UpOrdered.finish {keyOf : element → key} {cells : Nat → element} {size index : Nat}
    (ready : UpOrdered keyOf cells size index)
    (stopped : 0 < index → ¬ keyOf (cells index) < keyOf (cells (parent index))) :
    Ordered keyOf cells size := by
  intro other positive inRange
  by_cases isIndex : other = index
  · subst other
    exact le_of_not_gt (stopped positive)
  · exact ready.elsewhere other positive inRange isIndex

theorem siftUp_ordered {keyOf : element → key} {cells : Nat → element} {size index : Nat}
    (inRange : index < size) (ready : UpOrdered keyOf cells size index) :
    Ordered keyOf (siftUp keyOf cells index) size := by
  fun_induction siftUp keyOf cells index with
  | case1 cells index positive smaller ih =>
      have before := parent_lt positive
      exact ih (by omega) (ready.swap positive inRange smaller)
  | case2 cells index positive notSmaller => exact ready.finish (fun _ => notSmaller)
  | case3 cells index notPositive =>
      exact ready.finish (fun positive => absurd positive notPositive)

/-- The root changes only for an element that is strictly smaller. -/
theorem siftUp_root {keyOf : element → key} {cells : Nat → element} {index : Nat}
    (positive : 0 < index)
    (least : ∀ other, other < index → keyOf (cells 0) ≤ keyOf (cells other)) :
    siftUp keyOf cells index 0 =
      if keyOf (cells index) < keyOf (cells 0) then cells index else cells 0 := by
  fun_induction siftUp keyOf cells index with
  | case1 cells index positive smaller ih =>
      have before := parent_lt positive
      rcases Nat.eq_zero_or_pos (parent index) with isRoot | parentPositive
      · rw [isRoot] at smaller ⊢
        rw [siftUp_stop (fun impossible => absurd impossible (Nat.lt_irrefl 0)), swap_left,
          if_pos smaller]
      · have sameRoot : swap cells (parent index) index 0 = cells 0 :=
          swap_other cells (by omega) (by omega)
        have outcome := ih parentPositive (by
          intro other inside
          rw [sameRoot, swap_other cells (by omega) (by omega)]
          exact least other (by omega))
        rw [outcome, swap_left, sameRoot]
  | case2 cells index positive notSmaller =>
      have above := least (parent index) (parent_lt positive)
      rw [if_neg (not_lt_of_ge (le_trans above (le_of_not_gt notSmaller)))]
  | case3 cells index notPositive => exact absurd positive notPositive

/-! ### Sifting down -/

/-- Of two indices the one with the smaller key, the first on equal keys. -/
def lesser (keyOf : element → key) (cells : Nat → element) (first second : Nat) : Nat :=
  if keyOf (cells second) < keyOf (cells first) then second else first

theorem lesser_cases (keyOf : element → key) (cells : Nat → element) (first second : Nat) :
    lesser keyOf cells first second = first ∨
      lesser keyOf cells first second = second ∧
        keyOf (cells second) < keyOf (cells first) := by
  unfold lesser
  split
  · rename_i smaller
    exact Or.inr ⟨rfl, smaller⟩
  · exact Or.inl rfl

theorem lesser_le_first (keyOf : element → key) (cells : Nat → element)
    (first second : Nat) :
    keyOf (cells (lesser keyOf cells first second)) ≤ keyOf (cells first) := by
  rcases lesser_cases keyOf cells first second with same | ⟨same, smaller⟩
  · rw [same]
  · rw [same]
    exact le_of_lt smaller

theorem lesser_le_second (keyOf : element → key) (cells : Nat → element)
    (first second : Nat) :
    keyOf (cells (lesser keyOf cells first second)) ≤ keyOf (cells second) := by
  unfold lesser
  split
  · exact le_refl _
  · rename_i notSmaller
    exact le_of_not_gt notSmaller

/-- The least of `index` and its children. -/
def leastIndex (keyOf : element → key) (cells : Nat → element) (size index : Nat) : Nat :=
  if 2 * index + 2 < size then
    lesser keyOf cells (lesser keyOf cells index (2 * index + 1)) (2 * index + 2)
  else lesser keyOf cells index (2 * index + 1)

theorem leastIndex_cases (keyOf : element → key) (cells : Nat → element) (size index : Nat) :
    leastIndex keyOf cells size index = index ∨
      (leastIndex keyOf cells size index = 2 * index + 1 ∨
        leastIndex keyOf cells size index = 2 * index + 2 ∧ 2 * index + 2 < size) ∧
      keyOf (cells (leastIndex keyOf cells size index)) < keyOf (cells index) := by
  unfold leastIndex
  rcases lesser_cases keyOf cells index (2 * index + 1) with first | ⟨first, firstSmaller⟩
  · rw [first]
    split
    · rename_i hasRight
      rcases lesser_cases keyOf cells index (2 * index + 2) with same | ⟨same, smaller⟩
      · exact Or.inl same
      · rw [same]
        exact Or.inr ⟨Or.inr ⟨rfl, hasRight⟩, smaller⟩
    · exact Or.inl rfl
  · rw [first]
    split
    · rename_i hasRight
      rcases lesser_cases keyOf cells (2 * index + 1) (2 * index + 2) with
        same | ⟨same, smaller⟩
      · rw [same]
        exact Or.inr ⟨Or.inl rfl, firstSmaller⟩
      · rw [same]
        exact Or.inr ⟨Or.inr ⟨rfl, hasRight⟩, lt_trans smaller firstSmaller⟩
    · exact Or.inr ⟨Or.inl rfl, firstSmaller⟩

/-- When the least index is not `index` itself, it is a child in use with a
smaller key. -/
theorem leastIndex_child {keyOf : element → key} {cells : Nat → element} {size index : Nat}
    (hasChild : 2 * index + 1 < size) (moved : leastIndex keyOf cells size index ≠ index) :
    parent (leastIndex keyOf cells size index) = index ∧
      index < leastIndex keyOf cells size index ∧
      leastIndex keyOf cells size index < size ∧
      keyOf (cells (leastIndex keyOf cells size index)) < keyOf (cells index) := by
  obtain ⟨place, smaller⟩ := (leastIndex_cases keyOf cells size index).resolve_left moved
  have above : index < leastIndex keyOf cells size index := by omega
  exact ⟨(parent_eq_iff (by omega)).mpr (by omega), above, by omega, smaller⟩

theorem leastIndex_le_child (keyOf : element → key) (cells : Nat → element)
    {size index child : Nat} (positive : 0 < child) (inRange : child < size)
    (under : parent child = index) :
    keyOf (cells (leastIndex keyOf cells size index)) ≤ keyOf (cells child) := by
  unfold leastIndex
  rcases (parent_eq_iff positive).mp under with isLeft | isRight
  · rw [isLeft]
    have left := lesser_le_second keyOf cells index (2 * index + 1)
    split
    · exact le_trans (lesser_le_first keyOf cells _ _) left
    · exact left
  · rw [isRight] at inRange ⊢
    rw [if_pos inRange]
    exact lesser_le_second keyOf cells _ _

def siftDown (keyOf : element → key) (cells : Nat → element) (size index : Nat) :
    Nat → element :=
  if 2 * index + 1 < size then
    if leastIndex keyOf cells size index = index then cells
    else siftDown keyOf (swap cells index (leastIndex keyOf cells size index)) size
      (leastIndex keyOf cells size index)
  else cells
termination_by size - index
decreasing_by
  rename_i hasChild moved
  have bounds := leastIndex_child hasChild moved
  omega

theorem siftDown_step {keyOf : element → key} {cells : Nat → element} {size index : Nat}
    (hasChild : 2 * index + 1 < size) (moved : leastIndex keyOf cells size index ≠ index) :
    siftDown keyOf cells size index =
      siftDown keyOf (swap cells index (leastIndex keyOf cells size index)) size
        (leastIndex keyOf cells size index) := by
  rw [siftDown, if_pos hasChild, if_neg moved]

theorem siftDown_stop {keyOf : element → key} {cells : Nat → element} {size index : Nat}
    (stopped : 2 * index + 1 < size → leastIndex keyOf cells size index = index) :
    siftDown keyOf cells size index = cells := by
  rw [siftDown]
  split
  · rename_i hasChild
    rw [if_pos (stopped hasChild)]
  · rfl

theorem bag_siftDown (keyOf : element → key) (cells : Nat → element) (size index : Nat) :
    bag (siftDown keyOf cells size index) size = bag cells size := by
  fun_induction siftDown keyOf cells size index with
  | case1 => rfl
  | case2 cells index hasChild moved ih =>
      have bounds := leastIndex_child hasChild moved
      rw [ih, bag_swap cells (by omega) bounds.2.2.1]
  | case3 => rfl

theorem DownOrdered.swap {keyOf : element → key} {cells : Nat → element} {size index : Nat}
    (ready : DownOrdered keyOf cells size index) (hasChild : 2 * index + 1 < size)
    (moved : leastIndex keyOf cells size index ≠ index) :
    DownOrdered keyOf (BinaryHeap.swap cells index (leastIndex keyOf cells size index)) size
      (leastIndex keyOf cells size index) := by
  obtain ⟨under, above, leastLt, smaller⟩ := leastIndex_child hasChild moved
  have leChild : ∀ child, 0 < child → child < size → parent child = index →
      keyOf (cells (leastIndex keyOf cells size index)) ≤ keyOf (cells child) :=
    fun child positive inRange below => leastIndex_le_child keyOf cells positive inRange below
  generalize leastIndex keyOf cells size index = least at *
  constructor
  · intro other positive inRange notUnder
    by_cases isLeast : other = least
    · rw [isLeast, under, swap_left, swap_right]
      exact le_of_lt smaller
    · by_cases isIndex : other = index
      · rw [isIndex, swap_left]
        have parentBefore := parent_lt (isIndex ▸ positive : 0 < index)
        rw [swap_other cells (by omega) (by omega)]
        exact ready.across least (by omega) leastLt under (isIndex ▸ positive)
      · rw [swap_other cells isIndex isLeast]
        by_cases underIndex : parent other = index
        · rw [underIndex, swap_left]
          exact leChild other positive inRange underIndex
        · rw [swap_other cells underIndex notUnder]
          exact ready.elsewhere other positive inRange underIndex
  · intro child positive inRange underLeast _
    have childAbove := parent_lt positive
    rw [under, swap_left, swap_other cells (by omega) (by omega)]
    have edge := ready.elsewhere child positive inRange (by omega)
    rw [underLeast] at edge
    exact edge

theorem DownOrdered.finish {keyOf : element → key} {cells : Nat → element}
    {size index : Nat} (ready : DownOrdered keyOf cells size index)
    (stopped : 2 * index + 1 < size → leastIndex keyOf cells size index = index) :
    Ordered keyOf cells size := by
  intro other positive inRange
  by_cases under : parent other = index
  · have hasChild : 2 * index + 1 < size := by
      rcases (parent_eq_iff positive).mp under with isLeft | isRight <;> omega
    have least := leastIndex_le_child keyOf cells positive inRange under
    rw [stopped hasChild] at least
    rw [under]
    exact least
  · exact ready.elsewhere other positive inRange under

theorem siftDown_ordered {keyOf : element → key} {cells : Nat → element} {size index : Nat}
    (ready : DownOrdered keyOf cells size index) :
    Ordered keyOf (siftDown keyOf cells size index) size := by
  fun_induction siftDown keyOf cells size index with
  | case1 cells index hasChild stopped => exact ready.finish (fun _ => stopped)
  | case2 cells index hasChild moved ih => exact ih (ready.swap hasChild moved)
  | case3 cells index noChild =>
      exact ready.finish (fun hasChild => absurd hasChild noChild)

/-! ### The priority queue -/

/-- Append in the first free cell and sift up. -/
def push (keyOf : element → key) (cells : Nat → element) (size : Nat) (item : element) :
    Nat → element :=
  siftUp keyOf (fun index => if index = size then item else cells index) size

theorem push_ordered {keyOf : element → key} {cells : Nat → element} {size : Nat}
    (ordered : Ordered keyOf cells size) (item : element) :
    Ordered keyOf (push keyOf cells size item) (size + 1) := by
  apply siftUp_ordered (Nat.lt_succ_self size)
  constructor
  · intro other positive inRange different
    have before := parent_lt positive
    rw [if_neg different, if_neg (by omega : parent other ≠ size)]
    exact ordered other positive (by omega)
  · intro child positive inRange under
    have before := parent_lt positive
    omega

theorem push_root {keyOf : element → key} {cells : Nat → element} {size : Nat}
    (ordered : Ordered keyOf cells size) (positive : 0 < size) (item : element) :
    push keyOf cells size item 0 =
      if keyOf item < keyOf (cells 0) then item else cells 0 := by
  have isRoot : (if 0 = size then item else cells 0) = cells 0 := if_neg (Nat.ne_of_lt positive)
  rw [push, siftUp_root positive, isRoot, if_pos rfl]
  intro other inside
  rw [isRoot, if_neg (Nat.ne_of_lt inside)]
  exact ordered.root_le other inside

theorem bag_push (keyOf : element → key) (cells : Nat → element) (size : Nat)
    (item : element) :
    bag (push keyOf cells size item) (size + 1) = item ::ₘ bag cells size := by
  rw [push, bag_siftUp keyOf _ _ _ (Nat.lt_succ_self size), bag_succ, if_pos rfl]
  congr 1
  apply bag_congr
  intro index inRange
  exact if_neg (by omega)

/-- Move the last element to the root and sift it down. -/
def pop (keyOf : element → key) (cells : Nat → element) (size : Nat) : Nat → element :=
  siftDown keyOf (swap cells size 0) size 0

theorem pop_ordered {keyOf : element → key} {cells : Nat → element} {size : Nat}
    (ordered : Ordered keyOf cells (size + 1)) :
    Ordered keyOf (pop keyOf cells size) size := by
  apply siftDown_ordered
  constructor
  · intro other positive inRange notUnder
    have before := parent_lt positive
    rw [swap_other cells (by omega : parent other ≠ size) notUnder,
      swap_other cells (by omega : other ≠ size) (by omega)]
    exact ordered other positive (by omega)
  · intro child positive inRange under impossible
    exact absurd impossible (Nat.lt_irrefl 0)

theorem bag_pop (keyOf : element → key) (cells : Nat → element) (size : Nat) :
    cells 0 ::ₘ bag (pop keyOf cells size) size = bag cells (size + 1) := by
  rw [pop, bag_siftDown, ← bag_swap cells (Nat.lt_succ_self size) (Nat.succ_pos size),
    bag_succ, swap_left]

end BinaryHeap
