import IoxCore.Lib.Except
import Mathlib.Data.List.Nodup
import Mathlib.Data.Int.Notation

/-!
# data_types: sort key ids

A model of `SortKeyIds` (src/data_types/src/columns.rs): the column ids of a partition's sort
key in their order, with `new`, `maybe_append`, which appends the columns of another key that
are missing and keeps the time column last, and `is_monotonic_update`.

## The model

A column id is an integer. `SortKeyIds::new` checks for duplicates only when `debug_assertions`
is on: `check_for_deplicates` keeps the ids seen so far and panics at the first one already
seen. The flag is the parameter `debugAssertions`, and a panic is `Failure.panic`. The `assert_eq`
of `is_monotonic_update` panics in every build.

## What is proved

`checkForDeplicates_eq_ok_iff`: the check passes exactly on duplicate-free ids.
`maybeAppend_spec`: for duplicate-free keys where `self` ends with the time column, `maybe_append`
answers `None` exactly when every id of `other` is in `self`, and otherwise a duplicate-free key
that is `self` without time, then the new ids of `other` in their order, then time. That key
contains both, and it is a monotonic update of `self`. An empty `self` is different
(`maybeAppend_empty_repeats_time`). The time column of `other` is new to it, so it is appended
and then appended again: a debug build panics, and a release build returns a key with the
time column twice.
-/

namespace IoxCore.DataTypes

/-- `SortKeyIds`: the ids of a sort key's columns, in order. The type does not keep them
distinct. Only a debug build checks that. -/
structure SortKeyIds where
  ids : List ℤ
  deriving DecidableEq, Repr

/-! ### `check_for_deplicates` and `new` -/

/-- One step of `check_for_deplicates`: an id already in the set panics, and a new one joins
it. -/
def insertSeen (seen : List ℤ) (c : ℤ) : Except Failure (List ℤ) :=
  if c ∈ seen then .error .panic else .ok (c :: seen)

/-- `SortKeyIds::check_for_deplicates`. -/
def checkForDeplicates (columns : List ℤ) : Except Failure Unit :=
  (columns.foldlM insertSeen []).map fun _ => ()

/-- `SortKeyIds::new`: the duplicate check runs in debug builds only. -/
def SortKeyIds.new (debugAssertions : Bool) (columns : List ℤ) : Except Failure SortKeyIds :=
  if debugAssertions then (checkForDeplicates columns).map fun _ => ⟨columns⟩ else .ok ⟨columns⟩

/-- The loop of the check, from any set of ids already seen: it passes exactly when the ids
are distinct and none was seen before. -/
theorem foldlM_insertSeen : ∀ (cs seen : List ℤ),
    cs.foldlM insertSeen seen =
      if cs.Nodup ∧ ∀ c ∈ cs, c ∉ seen then .ok (cs.reverse ++ seen) else .error .panic
  | [], seen => by simp
  | c :: cs, seen => by
    rw [List.foldlM_cons]
    by_cases hc : c ∈ seen
    · simp [insertSeen, hc]
    · simp only [insertSeen, hc, if_false, Except.ok_bind, foldlM_insertSeen cs (c :: seen)]
      -- the new set holds `c`, so "not seen" for `cs` also says `c ∉ cs`
      refine if_congr ?_ (by simp) rfl
      simp only [List.mem_cons, not_or, List.nodup_cons]
      constructor
      · rintro ⟨hnd, hall⟩
        exact ⟨⟨fun hcs => (hall c hcs).1 rfl, hnd⟩,
          fun x hx => hx.elim (fun h => h ▸ hc) fun h => (hall x h).2⟩
      · rintro ⟨⟨hcs, hnd⟩, hall⟩
        exact ⟨hnd, fun x hx => ⟨fun hxc => hcs (hxc ▸ hx), hall x (.inr hx)⟩⟩

theorem checkForDeplicates_eq_ok_iff {cs : List ℤ} : checkForDeplicates cs = .ok () ↔ cs.Nodup := by
  simp only [checkForDeplicates, foldlM_insertSeen cs []]
  split <;> simp_all [Except.map]

theorem checkForDeplicates_eq_error_iff {cs : List ℤ} :
    checkForDeplicates cs = .error .panic ↔ ¬ cs.Nodup := by
  simp only [checkForDeplicates, foldlM_insertSeen cs []]
  split <;> simp_all [Except.map]

/-- `new` keeps the ids as they are, and fails only in a debug build, on a duplicate. -/
theorem SortKeyIds.new_eq (debugAssertions : Bool) (cs : List ℤ) :
    SortKeyIds.new debugAssertions cs =
      if debugAssertions ∧ ¬ cs.Nodup then .error .panic else .ok ⟨cs⟩ := by
  cases debugAssertions with
  | false => simp [SortKeyIds.new]
  | true =>
    by_cases hnd : cs.Nodup
    · simp [SortKeyIds.new, checkForDeplicates_eq_ok_iff.2 hnd, hnd, Except.map]
    · simp [SortKeyIds.new, checkForDeplicates_eq_error_iff.2 hnd, hnd, Except.map]

/-! ### `maybe_append` and `is_monotonic_update` -/

/-- `SortKeyIds::maybe_append`: the ids of `other` that `self` lacks are appended after the ids
of `self` without time, and time goes last. `None` when nothing is new. -/
def SortKeyIds.maybeAppend (debugAssertions : Bool) (self other : SortKeyIds) (timeColumnId : ℤ) :
    Except Failure (Option SortKeyIds) :=
  let existingColumnsWithoutTime := self.ids.filter fun c => c != timeColumnId
  let newColumns := other.ids.filter fun c => !self.ids.contains c
  if newColumns.isEmpty then .ok none
  else (SortKeyIds.new debugAssertions
    (existingColumnsWithoutTime ++ newColumns ++ [timeColumnId])).map some

/-- `SortKeyIds::is_monotonic_update`: the last ids must agree (else the `assert_eq` panics),
and `other` must be at least as long and start with `self` without its last id. -/
def SortKeyIds.isMonotonicUpdate (self other : SortKeyIds) : Except Failure Bool :=
  if self.ids.getLast?.isSome && self.ids.getLast? != other.ids.getLast? then .error .panic
  else .ok (decide (self.ids.length ≤ other.ids.length) &&
    ((self.ids.take (self.ids.length - 1)).zip other.ids).all fun p => p.1 == p.2)

/-- Zipping a list with a list that starts with it pairs each element with itself. -/
theorem all_zip_append_self (l r : List ℤ) : ((l.zip (l ++ r)).all fun p => p.1 == p.2) = true := by
  induction l with
  | nil => rfl
  | cons a l ih => simpa using ih

/-- A key that keeps every id of `self` but the last, in place, appends ids and ends with the
same last id is a monotonic update. -/
theorem isMonotonicUpdate_of_append (s' r : List ℤ) (t : ℤ) :
    SortKeyIds.isMonotonicUpdate ⟨s' ++ [t]⟩ ⟨s' ++ r ++ [t]⟩ = .ok true := by
  have hlen : (s' ++ [t]).length - 1 = s'.length := by simp
  simp only [SortKeyIds.isMonotonicUpdate, List.getLast?_append, List.getLast?_singleton, hlen,
    List.take_left', List.append_assoc, all_zip_append_self, Bool.and_true]
  simp

/-- **What `maybe_append` returns on a key that ends with the time column.** -/
theorem maybeAppend_spec (debugAssertions : Bool) {s o : List ℤ} {t : ℤ} (hs : s.Nodup)
    (ho : o.Nodup) (hst : s.getLast? = some t) :
    (SortKeyIds.maybeAppend debugAssertions ⟨s⟩ ⟨o⟩ t = .ok none ↔ ∀ x ∈ o, x ∈ s) ∧
      ((∃ x ∈ o, x ∉ s) → ∃ k, SortKeyIds.maybeAppend debugAssertions ⟨s⟩ ⟨o⟩ t = .ok (some k) ∧
        k.ids = s.filter (· ≠ t) ++ o.filter (· ∉ s) ++ [t] ∧ k.ids.Nodup ∧
        t ∉ s.filter (· ≠ t) ++ o.filter (· ∉ s) ∧ (∀ x, x ∈ s ∨ x ∈ o → x ∈ k.ids) ∧
        SortKeyIds.isMonotonicUpdate ⟨s⟩ k = .ok true) := by
  obtain ⟨s', rfl⟩ := List.getLast?_eq_some_iff.1 hst
  have hts : t ∉ s' := fun h => (List.nodup_append.1 hs).2.2 t h t (by simp) rfl
  have hs' : s'.Nodup := (List.nodup_append.1 hs).1
  -- the new columns: the ids of `other` outside `self`
  set f := o.filter (· ∉ s' ++ [t]) with hf
  have hmemf : ∀ a, a ∈ f ↔ a ∈ o ∧ a ∉ s' ++ [t] := fun a => by simp [hf]
  -- `self` without time is the part before the time column
  have hexisting (p : ℤ → Bool) (hp : ∀ a, p a = !decide (a = t)) : (s' ++ [t]).filter p = s' := by
    rw [List.filter_append, List.filter_eq_self.2 fun a ha => by
      simpa [hp] using ne_of_mem_of_not_mem ha hts]
    simp [hp]
  have hnd : (s' ++ f ++ [t]).Nodup := by
    refine (hs'.append (ho.filter _) ?_).append (List.nodup_singleton t) ?_
    · intro a has haf
      exact ((hmemf a).1 haf).2 (List.mem_append_left _ has)
    · intro a ha hat
      rw [List.mem_singleton] at hat
      subst hat
      rcases List.mem_append.1 ha with h | h
      · exact hts h
      · exact ((hmemf a).1 h).2 (by simp)
  have heval : SortKeyIds.maybeAppend debugAssertions ⟨s' ++ [t]⟩ ⟨o⟩ t =
      if f.isEmpty then .ok none else .ok (some ⟨s' ++ f ++ [t]⟩) := by
    have hnew : o.filter (fun c => !(s' ++ [t]).contains c) = f := List.filter_congr (by simp)
    simp only [SortKeyIds.maybeAppend, hnew, hexisting (fun c => c != t) fun _ => rfl]
    split
    · rfl
    · rw [SortKeyIds.new_eq, if_neg fun h => h.2 hnd]
      rfl
  have hempty : f.isEmpty = true ↔ ∀ x ∈ o, x ∈ s' ++ [t] := by
    simp only [List.isEmpty_iff, List.eq_nil_iff_forall_not_mem, hmemf, not_and, not_not]
  refine ⟨?_, fun ⟨x, hxo, hxs⟩ => ?_⟩
  · rw [heval, ← hempty]
    cases f.isEmpty <;> simp
  · have hne : f.isEmpty = false := by
      rw [Bool.eq_false_iff, ne_eq, hempty]
      exact fun h => hxs (h x hxo)
    refine ⟨_, by rw [heval, hne]; rfl, by rw [hexisting _ (by simp)], hnd, ?_, ?_, ?_⟩
    · rw [hexisting _ (by simp)]
      simp [hts, hmemf]
    · rintro y (hy | hy)
      · simp only [List.mem_append, List.mem_singleton] at hy ⊢
        tauto
      · by_cases hys : y ∈ s' ++ [t]
        · simp only [List.mem_append, List.mem_singleton] at hys ⊢
          tauto
        · simp [hmemf, hy, hys]
    · exact isMonotonicUpdate_of_append s' f t

/-- Merging the key `[3, 2]` into `[1, 2]`, where `2` is time, gives `[1, 3, 2]`. -/
theorem maybeAppend_one_new_column :
    ∃ k, SortKeyIds.maybeAppend true ⟨[1, 2]⟩ ⟨[3, 2]⟩ 2 = .ok (some k) ∧ k.ids = [1, 3, 2] := by
  obtain ⟨k, hk, hids, -⟩ := (maybeAppend_spec true (s := [1, 2]) (o := [3, 2]) (t := 2)
    (by decide) (by decide) rfl).2 ⟨3, by decide, by decide⟩
  exact ⟨k, hk, by rw [hids]; decide⟩

/-- **On an empty key, `maybe_append` appends the time column twice.** The time column ends
`other` and is not in the empty key, so it is one of the new columns, and `maybe_append` then
appends it once more. A debug build panics in `new`. A release build returns the key `other`
followed by time again. -/
theorem maybeAppend_empty_repeats_time (debugAssertions : Bool) {o : List ℤ} {t : ℤ}
    (hot : o.getLast? = some t) :
    SortKeyIds.maybeAppend debugAssertions ⟨[]⟩ ⟨o⟩ t =
        (if debugAssertions then .error .panic else .ok (some ⟨o ++ [t]⟩)) ∧
      ¬ (o ++ [t]).Nodup := by
  have hto : t ∈ o := List.mem_of_getLast? hot
  have hdup : ¬ (o ++ [t]).Nodup := by
    simp [List.nodup_append, hto]
  have hne : o.isEmpty = false := by
    cases o with
    | nil => simp at hto
    | cons => rfl
  refine ⟨?_, hdup⟩
  simp only [SortKeyIds.maybeAppend, List.filter_nil, List.contains_nil, Bool.not_false,
    List.filter_true, hne, Bool.false_eq_true, if_false, List.nil_append, SortKeyIds.new_eq]
  cases debugAssertions <;> simp [hdup, Except.map]

theorem maybeAppend_time_only_key :
    ([7] : List ℤ).getLast? = some 7 ∧
      (SortKeyIds.maybeAppend true ⟨[]⟩ ⟨[7]⟩ 7 = .error .panic ∧ ¬ ([7, 7] : List ℤ).Nodup) :=
  ⟨rfl, maybeAppend_empty_repeats_time true rfl⟩

end IoxCore.DataTypes
