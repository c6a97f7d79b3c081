import Mathlib.Data.List.Sort

/-!
# Sorted sets

A finite set of a linearly ordered type, kept as the strictly increasing list of its elements,
as an ordered set such as `BTreeSet` presents it: iteration goes from the least element up,
`insert` and `erase` report whether the element was new or present, and `popFirst` takes the
least element off. The set carries its sortedness, so an unsorted set cannot be built, and the
lemmas here are all a user needs: which elements each operation leaves in the set, and what it
reports.
-/

/-- A finite set as its elements in increasing order. -/
structure SortedSet (α : Type) [LinearOrder α] where
  toList : List α
  sorted : toList.Pairwise (· < ·)

namespace SortedSet

variable {α : Type} [LinearOrder α]

/-- The empty set. -/
def empty : SortedSet α := ⟨[], List.Pairwise.nil⟩

theorem pairwise_orderedInsert {a : α} {l : List α} (hl : l.Pairwise (· < ·)) (ha : a ∉ l) :
    (l.orderedInsert (· ≤ ·) a).Pairwise (· < ·) := by
  rw [← List.sortedLT_iff_pairwise, List.sortedLT_iff_nodup_and_sortedLE, List.sortedLE_iff_pairwise]
  have hle : l.Pairwise (· ≤ ·) := hl.imp le_of_lt
  exact ⟨(List.perm_orderedInsert _ a l).nodup_iff.2 (List.nodup_cons.2 ⟨ha, hl.nodup⟩),
    hle.orderedInsert a l⟩

/-- Adds an element: whether it was new, and the set with it. -/
def insert (a : α) (s : SortedSet α) : Bool × SortedSet α :=
  if h : a ∈ s.toList then (false, s)
  else (true, ⟨s.toList.orderedInsert (· ≤ ·) a, pairwise_orderedInsert s.sorted h⟩)

/-- Removes an element: whether it was present, and the set without it. -/
def erase (a : α) (s : SortedSet α) : Bool × SortedSet α :=
  if a ∈ s.toList then (true, ⟨s.toList.erase a, s.sorted.sublist List.erase_sublist⟩)
  else (false, s)

/-- Takes the least element off, if there is one. -/
def popFirst : SortedSet α → Option (α × SortedSet α)
  | ⟨[], _⟩ => none
  | ⟨a :: l, h⟩ => some (a, ⟨l, (List.pairwise_cons.1 h).2⟩)

@[simp] theorem toList_empty : (empty : SortedSet α).toList = [] := rfl

@[simp] theorem insert_fst (a : α) (s : SortedSet α) : (s.insert a).1 = decide (a ∉ s.toList) := by
  unfold insert
  split <;> simp_all

theorem mem_insert {a b : α} {s : SortedSet α} : b ∈ (s.insert a).2.toList ↔ b = a ∨ b ∈ s.toList := by
  unfold insert
  split
  · constructor
    · exact Or.inr
    · rintro (rfl | h) <;> assumption
  · exact List.mem_orderedInsert _

/-- A set built by inserting the elements of a list holds those and the ones it started with. -/
theorem mem_foldl_insert {b : α} (l : List α) (s : SortedSet α) :
    b ∈ (l.foldl (fun s a => (s.insert a).2) s).toList ↔ b ∈ l ∨ b ∈ s.toList := by
  induction l generalizing s with
  | nil => simp
  | cons a l ih =>
    rw [List.foldl_cons, ih, mem_insert, List.mem_cons]
    tauto

@[simp] theorem erase_fst (a : α) (s : SortedSet α) : (s.erase a).1 = decide (a ∈ s.toList) := by
  unfold erase
  split <;> simp_all

theorem mem_erase {a b : α} {s : SortedSet α} : b ∈ (s.erase a).2.toList ↔ b ≠ a ∧ b ∈ s.toList := by
  unfold erase
  split
  · exact s.sorted.nodup.mem_erase_iff
  · constructor
    · rintro h
      exact ⟨fun hba => by simp_all, h⟩
    · exact And.right

theorem length_insert_le (a : α) (s : SortedSet α) :
    (s.insert a).2.toList.length ≤ s.toList.length + 1 := by
  unfold insert
  split
  · exact Nat.le_succ _
  · exact (List.orderedInsert_length _ _ _).le

theorem length_erase_le (a : α) (s : SortedSet α) : (s.erase a).2.toList.length ≤ s.toList.length := by
  unfold erase
  split
  · exact List.length_erase_le
  · exact le_rfl

theorem popFirst_eq_none {s : SortedSet α} : s.popFirst = none ↔ s.toList = [] := by
  rcases s with ⟨_ | ⟨a, l⟩, h⟩ <;> simp [popFirst]

/-- The element `popFirst` takes is the head of the list, and the rest stays. -/
theorem toList_of_popFirst {s s' : SortedSet α} {a : α} (h : s.popFirst = some (a, s')) :
    s.toList = a :: s'.toList := by
  rcases s with ⟨_ | ⟨b, l⟩, hs⟩
  · cases h
  · simp only [popFirst, Option.some.injEq, Prod.mk.injEq] at h
    obtain ⟨rfl, rfl⟩ := h
    rfl

/-- The first element is the least. -/
theorem head_le {s : SortedSet α} {a b : α} {l : List α} (hs : s.toList = a :: l)
    (hb : b ∈ s.toList) : a ≤ b := by
  have hsorted := s.sorted
  rw [hs] at hsorted hb
  rcases List.mem_cons.1 hb with rfl | hb
  · exact le_rfl
  · exact (List.rel_of_pairwise_cons hsorted hb).le

theorem mem_of_popFirst {s s' : SortedSet α} {a b : α} (h : s.popFirst = some (a, s')) :
    b ∈ s'.toList ↔ b ≠ a ∧ b ∈ s.toList := by
  have hs := toList_of_popFirst h
  have ha : a ∉ s'.toList := (List.nodup_cons.1 (hs ▸ s.sorted.nodup)).1
  rw [hs, List.mem_cons]
  constructor
  · rintro hb
    exact ⟨fun hba => ha (hba ▸ hb), Or.inr hb⟩
  · rintro ⟨hba, rfl | hb⟩
    · exact absurd rfl hba
    · exact hb

end SortedSet
