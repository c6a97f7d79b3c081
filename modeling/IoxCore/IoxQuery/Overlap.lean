import IoxCore.Lib.Except
import IoxCore.Lib.Components
import Mathlib.Logic.Relation
import Mathlib.Data.List.FinRange
import Mathlib.Data.List.ProdSigma

/-!
# iox_query: grouping chunks by overlapping time ranges

A model of `group_potential_duplicates` (src/iox_query/src/provider/overlap.rs), which splits the
chunks of a deduplication into groups that `TimeSplit` then deduplicates one by one: a sweep over
the start and end events of the chunks' time ranges, sorted by time with starts before ends.

## The model

A chunk is a value of any type `C`; `timestamp_min_max`, which reads the chunk's schema and
statistics, is the parameter `timestampMinMax`. `Vec::sort_by_key` is `List.mergeSort` on the key
`(value, start_end)` compared as a Rust tuple, lexicographically; the proofs use only that the
result is a sorted permutation, which every stable sort gives. The running sum is an integer: a
list of chunks too long for an `i32` is not considered. A group is a list of chunks and the
groups are a list, the last one taking the chunks whose end comes next.

## What is proved

`groupPotentialDuplicates_spec`: when a chunk lacks time statistics the one group is all the
chunks; otherwise the sweep never panics, and its groups are a partition of the chunks into
non-empty groups, each connected by overlapping ranges, while chunks of different groups have
disjoint ranges (`Components.IsComponents`): two chunks share a group exactly when a chain of
overlapping chunks joins them. Ranges that only touch overlap, as starts sort before ends. The
proof runs the sweep over the events with each start labelled by its chunk, which the code does
not record (`SweepInv`, one lemma per kind of event), and then forgets the labels
(`foldlM_sweepStep_map`).
-/

namespace IoxCore.IoxQuery.Overlap

open Components

/-- `TimestampMinMax`; `TimestampMinMax::new` asserts `min <= max`, so every value has it. -/
structure TimestampMinMax where
  min : ℤ
  max : ℤ
  min_le_max : min ≤ max
  deriving DecidableEq

/-- `StartEnd`; `finish` is the source's `End`. Starts sort before ends. -/
inductive StartEnd where
  | start
  | finish
  deriving DecidableEq, Repr

/-- The derived order of `StartEnd`, by declaration order. -/
def StartEnd.rank : StartEnd → ℕ
  | start => 0
  | finish => 1

/-- `GrouperRecord`, with its `StartEndChunk` flattened: a start carries no chunk. -/
structure GrouperRecord (C : Type) where
  value : ℤ
  startEnd : StartEnd
  chunk : Option C

variable {C : Type}

/-- The key of `sort_by_key`, `(value, start_end)`, compared as a tuple. -/
def keyLe (a b : GrouperRecord C) : Bool :=
  a.value < b.value || (a.value == b.value && a.startEnd.rank ≤ b.startEnd.rank)

/-- The records of `grouper`: a start at each chunk's minimum, an end with the chunk at its
maximum. -/
def grouperRecords (chunks : List (C × TimestampMinMax)) : List (GrouperRecord C) :=
  chunks.flatMap fun (chunk, timeRange) =>
    [⟨timeRange.min, .start, none⟩, ⟨timeRange.max, .finish, some chunk⟩]

/-- `groups.last_mut().expect(..).push(chunk)`; `none` when there is no group yet. -/
def pushLast (groups : List (List C)) (chunk : C) : Option (List (List C)) :=
  match groups.getLast? with
  | some last => some (groups.dropLast ++ [last ++ [chunk]])
  | none => none

/-- One iteration of the loop over the sorted records: count the event, open a group when a
start brings the count to 1, and put the chunk of an end in the last group. -/
def sweepStep (state : List (List C) × ℤ) (gr : GrouperRecord C) :
    Except Failure (List (List C) × ℤ) :=
  let cumulativeSum := state.2 + match gr.startEnd with
    | .start => 1
    | .finish => -1
  let groups := if gr.startEnd = .start ∧ cumulativeSum = 1 then state.1 ++ [[]] else state.1
  match gr.startEnd with
  | .start => pure (groups, cumulativeSum)
  | .finish =>
    match gr.chunk with
    -- `expect("Must have chunk value")`, and before it the `expect` of `last_mut`
    | none => .error .panic
    | some chunk =>
      match pushLast groups chunk with
      | some groups => pure (groups, cumulativeSum)
      | none => .error .panic

/-- `ts.expect("Time range should have value")`, for one chunk. -/
def expectTimeRange (pair : C × Option TimestampMinMax) : Except Failure (C × TimestampMinMax) :=
  match pair.2 with
  | some timeRange => pure (pair.1, timeRange)
  | none => .error .panic

/-- `group_potential_duplicates`. -/
def groupPotentialDuplicates (timestampMinMax : C → Option TimestampMinMax) (chunks : List C) :
    Except Failure (List (List C)) := do
  let ts := chunks.map timestampMinMax
  if ts.any Option.isNone then pure [chunks]
  else
    let timeRanges ← (chunks.zip ts).mapM expectTimeRange
    let grouper := (grouperRecords timeRanges).mergeSort keyLe
    let (groups, _) ← grouper.foldlM sweepStep ([], 0)
    pure groups

/-! ## The order of the sort -/

theorem keyLe_trans (a b c : GrouperRecord C) (hab : keyLe a b = true) (hbc : keyLe b c = true) :
    keyLe a c = true := by
  simp only [keyLe, Bool.or_eq_true, decide_eq_true_eq, Bool.and_eq_true, beq_iff_eq] at *
  omega

theorem keyLe_total (a b : GrouperRecord C) : (keyLe a b || keyLe b a) = true := by
  simp only [keyLe, Bool.or_eq_true, decide_eq_true_eq, Bool.and_eq_true, beq_iff_eq]
  omega

/-! ## Ranges and their overlaps -/

section Sweep

variable {ι : Type} (lo hi : ι → ℤ)

/-- Two closed ranges meet. -/
def Overlaps (i j : ι) : Prop := lo i ≤ hi j ∧ lo j ≤ hi i

theorem Overlaps.symm {lo hi : ι → ℤ} {i j : ι} (h : Overlaps lo hi i j) : Overlaps lo hi j i :=
  ⟨h.2, h.1⟩

/-- Every range of one group ends before every range of another begins. -/
def Before (g h : List ι) : Prop := ∀ i ∈ g, ∀ j ∈ h, hi i < lo j

variable {lo hi}

/-! ## The sweep over labelled events

An event is a chunk's index with `false` for its start and `true` for its end. The code's
records are these events with the start's label forgotten. -/

variable (lo hi) in
/-- The record of an event: a start at `lo i` with no chunk, an end at `hi i` with the chunk. -/
def eventRecord (e : ι × Bool) : GrouperRecord ι :=
  if e.2 then ⟨hi e.1, .finish, some e.1⟩ else ⟨lo e.1, .start, none⟩

variable (lo hi) in
/-- The order of the sort, on events. -/
def EventLe (a b : ι × Bool) : Prop := keyLe (eventRecord lo hi a) (eventRecord lo hi b) = true

theorem hi_lt_lo_of_eventLe {i j : ι} (h : EventLe lo hi (i, true) (j, false)) : hi i < lo j := by
  simp only [EventLe, keyLe, eventRecord, StartEnd.rank, Bool.or_eq_true, decide_eq_true_eq,
    Bool.and_eq_true, beq_iff_eq, if_true, Bool.false_eq_true, if_false] at h
  omega

theorem lo_le_lo_of_eventLe {k j : ι} (h : EventLe lo hi (k, false) (j, false)) : lo k ≤ lo j := by
  simp only [EventLe, keyLe, eventRecord, StartEnd.rank, Bool.or_eq_true, decide_eq_true_eq,
    Bool.and_eq_true, beq_iff_eq, Bool.false_eq_true, if_false] at h
  omega

theorem lo_le_hi_of_eventLe {j k : ι} (h : EventLe lo hi (j, false) (k, true)) : lo j ≤ hi k := by
  simp only [EventLe, keyLe, eventRecord, StartEnd.rank, Bool.or_eq_true, decide_eq_true_eq,
    Bool.and_eq_true, beq_iff_eq, if_true, Bool.false_eq_true, if_false] at h
  omega

variable (lo hi) in
/-- A complete sorted list of events: each chunk's start and end once each, sorted by the
code's key, with every range non-empty. -/
structure Schedule (A : List (ι × Bool)) : Prop where
  nodup : A.Nodup
  complete : ∀ j b, (j, b) ∈ A
  sorted : A.Pairwise (EventLe lo hi)
  lo_le_hi : ∀ i, lo i ≤ hi i

namespace Schedule

variable {P R : List (ι × Bool)}

/-- An event of a prefix comes before every later one in the order. -/
theorem le_of_split (hA : Schedule lo hi (P ++ R)) {x y : ι × Bool} (hx : x ∈ P) (hy : y ∈ R) :
    EventLe lo hi x y :=
  (List.pairwise_append.1 hA.sorted).2.2 x hx y hy

/-- A chunk's start comes before its end. -/
theorem start_mem_of_end_mem (hA : Schedule lo hi (P ++ R)) {i : ι} (hi' : (i, true) ∈ P) :
    (i, false) ∈ P := by
  rcases List.mem_append.1 (hA.complete i false) with h | h
  · exact h
  · exact absurd (hi_lt_lo_of_eventLe (hA.le_of_split hi' h)) (not_lt.2 (hA.lo_le_hi i))

/-- The current event comes before every later one. -/
theorem le_of_mem_rest (hA : Schedule lo hi (P ++ a :: R)) {y : ι × Bool} (hy : y ∈ R) :
    EventLe lo hi a y :=
  List.rel_of_pairwise_cons (List.pairwise_append.1 hA.sorted).2.1 hy

/-- The first event is a start: every end has its start before it. -/
theorem head_start (hA : Schedule lo hi ((i, b) :: R)) : b = false := by
  cases b with
  | false => rfl
  | true =>
    have hs : (i, false) ∈ R := by
      simpa using hA.complete i false
    have := hi_lt_lo_of_eventLe (List.rel_of_pairwise_cons hA.sorted hs)
    exact absurd this (not_lt.2 (hA.lo_le_hi i))

theorem not_mem_prefix (hA : Schedule lo hi (P ++ a :: R)) : a ∉ P := fun h =>
  (List.nodup_append.1 hA.nodup).2.2 a h a List.mem_cons_self rfl

/-- An event not yet processed is the current one or a later one. -/
theorem mem_of_not_mem_prefix (hA : Schedule lo hi (P ++ a :: R)) {x : ι × Bool} (hx : x ∉ P) :
    x ∈ a :: R :=
  (List.mem_append.1 (hA.complete x.1 x.2)).resolve_left hx

end Schedule

variable (lo hi) in
/-- What the sweep knows after the events `P`, with each start labelled by its chunk: `opn` are
the chunks started and not ended, counted by the running sum; the groups are `closed` and the
last one `cur`, holding the ended chunks in the order of their ends; every closed group is
connected and ends before every chunk not yet ended, and the last group with the open chunks is
connected. -/
structure SweepInv (P : List (ι × Bool)) (closed : List (List ι)) (cur opn : List ι) (sum : ℤ) :
    Prop where
  sum_eq : sum = opn.length
  opn_nodup : opn.Nodup
  mem_opn : ∀ k, k ∈ opn ↔ (k, false) ∈ P ∧ (k, true) ∉ P
  flatten_eq : (closed ++ [cur]).flatten = (P.filter (·.2)).map (·.1)
  separated : (closed ++ [cur]).Pairwise (Before lo hi)
  closed_before : ∀ g ∈ closed, ∀ i ∈ g, ∀ j, (j, true) ∉ P → hi i < lo j
  closed_connected : ∀ g ∈ closed, Connected (Overlaps lo hi) (· ∈ g)
  current_connected : Connected (Overlaps lo hi) (fun x => x ∈ cur ∨ x ∈ opn)
  closed_ne_nil : ∀ g ∈ closed, g ≠ []
  cur_or_opn : cur ≠ [] ∨ opn ≠ []

namespace SweepInv

variable {P R : List (ι × Bool)} {closed : List (List ι)} {cur opn : List ι} {sum : ℤ}

/-- A chunk of a group has ended. -/
theorem end_mem_of_mem (hinv : SweepInv lo hi P closed cur opn sum) {g : List ι}
    (hg : g ∈ closed ++ [cur]) {i : ι} (hi' : i ∈ g) : (i, true) ∈ P := by
  have : i ∈ (closed ++ [cur]).flatten := List.mem_flatten.2 ⟨g, hg, hi'⟩
  rw [hinv.flatten_eq] at this
  obtain ⟨⟨i', b⟩, hmem, rfl⟩ := List.mem_map.1 this
  obtain ⟨hP, hb⟩ := List.mem_filter.1 hmem
  simp only at hb
  exact hb ▸ hP

/-- The first event opens the first group. -/
theorem first (j : ι) : SweepInv lo hi [(j, false)] [] [] [j] 1 where
  sum_eq := rfl
  opn_nodup := List.nodup_singleton j
  mem_opn k := by simp
  flatten_eq := rfl
  separated := List.pairwise_singleton _ _
  closed_before := by simp
  closed_connected := by simp
  current_connected := (connected_singleton j).congr (by simp)
  closed_ne_nil := by simp
  cur_or_opn := .inr (List.cons_ne_nil _ _)

/-- A start when nothing is open: the last group is closed and a new one opens. -/
theorem start_open {j : ι} (hA : Schedule lo hi (P ++ (j, false) :: R))
    (hinv : SweepInv lo hi P closed cur [] sum) :
    SweepInv lo hi (P ++ [(j, false)]) (closed ++ [cur]) [] [j] (sum + 1) := by
  have hjP : (j, true) ∉ P := fun h =>
    hA.not_mem_prefix ((hA.start_mem_of_end_mem (R := (j, false) :: R)) h)
  -- nothing is open, so a chunk not ended has not started either
  have hnot_started : ∀ x, (x, true) ∉ P → (x, false) ∉ P := fun x hx hs =>
    by simpa using (hinv.mem_opn x).2 ⟨hs, hx⟩
  refine ⟨by simp [hinv.sum_eq], List.nodup_singleton j, fun k => ?_, ?_, ?_, ?_, ?_, ?_, ?_, ?_⟩
  · constructor
    · rintro hk
      obtain rfl := List.mem_singleton.1 hk
      simp [hjP]
    · rintro ⟨hs, he⟩
      simp only [List.mem_append, List.mem_singleton, Prod.mk.injEq, and_true, not_or,
        reduceCtorEq] at hs he
      rcases hs with hs | rfl
      · exact absurd hs (hnot_started k he.1)
      · exact List.mem_singleton_self _
  · rw [List.flatten_append, hinv.flatten_eq]
    simp [List.filter_append]
  · exact List.pairwise_append.2 ⟨hinv.separated, List.pairwise_singleton _ _, by simp [Before]⟩
  · intro g hg i hi' x hx
    have hx' : (x, true) ∉ P := fun h => hx (List.mem_append_left _ h)
    rcases List.mem_append.1 hg with hg | hg
    · exact hinv.closed_before g hg i hi' x hx'
    · -- the closed group's chunks have ended, and `x` has not started
      have hend := hinv.end_mem_of_mem (List.mem_append_right _ hg) hi'
      exact hi_lt_lo_of_eventLe
        (hA.le_of_split hend (hA.mem_of_not_mem_prefix (hnot_started x hx')))
  · intro g hg
    rcases List.mem_append.1 hg with hg | hg
    · exact hinv.closed_connected g hg
    · obtain rfl := List.mem_singleton.1 hg
      exact hinv.current_connected.congr (by simp)
  · exact (connected_singleton j).congr (by simp)
  · intro g hg
    rcases List.mem_append.1 hg with hg | hg
    · exact hinv.closed_ne_nil g hg
    · obtain rfl := List.mem_singleton.1 hg
      simpa using hinv.cur_or_opn
  · exact .inr (List.cons_ne_nil _ _)

/-- A start while some chunk is open: the chunk joins the open ones, and meets each of them,
since it starts after them and before they end. -/
theorem start_join {j : ι} (hA : Schedule lo hi (P ++ (j, false) :: R))
    (hinv : SweepInv lo hi P closed cur opn sum) (hopn : opn ≠ []) :
    SweepInv lo hi (P ++ [(j, false)]) closed cur (j :: opn) (sum + 1) := by
  have hjP : (j, true) ∉ P := fun h =>
    hA.not_mem_prefix ((hA.start_mem_of_end_mem (R := (j, false) :: R)) h)
  have hj_opn : j ∉ opn := fun h => hA.not_mem_prefix ((hinv.mem_opn j).1 h).1
  have hended : ∀ x, (x, true) ∈ P ++ [(j, false)] ↔ (x, true) ∈ P := by simp
  obtain ⟨k, hk⟩ := List.exists_mem_of_ne_nil opn hopn
  obtain ⟨hks, hke⟩ := (hinv.mem_opn k).1 hk
  have hoverlap : Overlaps lo hi k j := by
    have hlo : lo k ≤ lo j := lo_le_lo_of_eventLe (hA.le_of_split hks List.mem_cons_self)
    have hke' : (k, true) ∈ R := by
      rcases List.mem_cons.1 (hA.mem_of_not_mem_prefix hke) with h | h
      · cases h
      · exact h
    exact ⟨hlo.trans (hA.lo_le_hi j), lo_le_hi_of_eventLe (hA.le_of_mem_rest hke')⟩
  refine ⟨by simp [hinv.sum_eq], List.nodup_cons.2 ⟨hj_opn, hinv.opn_nodup⟩, fun x => ?_, ?_,
    hinv.separated, fun g hg i hi' x hx => hinv.closed_before g hg i hi' x (by simpa using hx),
    hinv.closed_connected, ?_, hinv.closed_ne_nil, .inr (List.cons_ne_nil _ _)⟩
  · rw [List.mem_cons, hinv.mem_opn x, hended]
    constructor
    · rintro (rfl | ⟨hs, he⟩)
      · exact ⟨List.mem_append_right _ (List.mem_singleton_self _), hjP⟩
      · exact ⟨List.mem_append_left _ hs, he⟩
    · rintro ⟨hs, he⟩
      rcases List.mem_append.1 hs with hs | hs
      · exact .inr ⟨hs, he⟩
      · exact .inl (by simpa using hs)
  · simp [List.filter_append, hinv.flatten_eq]
  · exact (hinv.current_connected.insert (fun _ _ => Overlaps.symm) (.inr hk) hoverlap).congr fun x => by
      simp only [List.mem_cons]
      tauto

/-- An end: the chunk leaves the open ones for the last group. It ends after every closed group,
as it had not ended when they were closed. -/
theorem finish [DecidableEq ι] {i : ι} (hA : Schedule lo hi (P ++ (i, true) :: R))
    (hinv : SweepInv lo hi P closed cur opn sum) :
    SweepInv lo hi (P ++ [(i, true)]) closed (cur ++ [i]) (opn.erase i) (sum - 1) := by
  have hiP : (i, true) ∉ P := hA.not_mem_prefix
  have hi_opn : i ∈ opn := by
    have hA' : Schedule lo hi ((P ++ [(i, true)]) ++ R) := by simpa using hA
    have := hA'.start_mem_of_end_mem (List.mem_append_right _ (List.mem_singleton_self _))
    exact (hinv.mem_opn i).2 ⟨by simpa using this, hiP⟩
  have hlen : opn.length = (opn.erase i).length + 1 := (List.length_erase_add_one hi_opn).symm
  refine ⟨by rw [hinv.sum_eq, hlen]; push_cast; omega, hinv.opn_nodup.erase i, fun k => ?_, ?_, ?_,
    fun g hg j hj x hx => hinv.closed_before g hg j hj x (fun h => hx (List.mem_append_left _ h)),
    hinv.closed_connected, ?_, hinv.closed_ne_nil, .inl (by simp)⟩
  · rw [hinv.opn_nodup.mem_erase_iff, hinv.mem_opn k]
    simp only [List.mem_append, List.mem_singleton, Prod.mk.injEq, and_true, not_or]
    tauto
  · simp [List.filter_append, ← hinv.flatten_eq]
  · rw [List.pairwise_append]
    refine ⟨(List.pairwise_append.1 hinv.separated).1, List.pairwise_singleton _ _, ?_⟩
    intro g hg h hh x hx y hy
    obtain rfl := List.mem_singleton.1 hh
    rcases List.mem_append.1 hy with hy | hy
    · exact (List.pairwise_append.1 hinv.separated).2.2 g hg cur (List.mem_singleton_self _) x hx y hy
    · obtain rfl := List.mem_singleton.1 hy
      exact hinv.closed_before g hg x hx y hiP
  · -- the chunk moves from the open ones to the last group
    refine hinv.current_connected.congr fun x => ?_
    rw [List.mem_append, List.mem_singleton, hinv.opn_nodup.mem_erase_iff]
    by_cases hxi : x = i
    · subst hxi
      simp [hi_opn]
    · simp [hxi]

end SweepInv

/-- The code's step on the record of an event keeps the invariant: one case per kind of event,
and for a start, whether something is open. -/
theorem sweepStep_inv [DecidableEq ι] {P R : List (ι × Bool)} {a : ι × Bool}
    {closed : List (List ι)} {cur opn : List ι} {sum : ℤ}
    (hA : Schedule lo hi (P ++ a :: R)) (hinv : SweepInv lo hi P closed cur opn sum) :
    ∃ closed' cur' opn' sum', sweepStep (closed ++ [cur], sum) (eventRecord lo hi a) =
        .ok (closed' ++ [cur'], sum') ∧ SweepInv lo hi (P ++ [a]) closed' cur' opn' sum' := by
  obtain ⟨i, _ | _⟩ := a
  · by_cases hopn : opn = []
    · subst hopn
      have hsum : sum = 0 := by simpa using hinv.sum_eq
      refine ⟨closed ++ [cur], [], [i], sum + 1, ?_, hinv.start_open hA⟩
      simp [sweepStep, eventRecord, hsum]
    · have hsum : sum + 1 ≠ 1 := by
        have := List.length_pos_of_ne_nil hopn
        rw [hinv.sum_eq]
        omega
      refine ⟨closed, cur, i :: opn, sum + 1, ?_, hinv.start_join hA hopn⟩
      simp [sweepStep, eventRecord, hsum]
  · refine ⟨closed, cur ++ [i], opn.erase i, sum - 1, ?_, hinv.finish hA⟩
    simp [sweepStep, eventRecord, pushLast, Int.add_neg_one]

/-- The rest of the sweep keeps the invariant: induction on the events left, one
`sweepStep_inv` each. -/
theorem foldlM_sweepStep_inv [DecidableEq ι] :
    ∀ (R P : List (ι × Bool)) (closed : List (List ι)) (cur opn : List ι) (sum : ℤ),
      Schedule lo hi (P ++ R) → SweepInv lo hi P closed cur opn sum →
      ∃ closed' cur' opn' sum', (R.map (eventRecord lo hi)).foldlM sweepStep (closed ++ [cur], sum) =
          .ok (closed' ++ [cur'], sum') ∧ SweepInv lo hi (P ++ R) closed' cur' opn' sum'
  | [], _, closed, cur, opn, sum, _, hinv => ⟨closed, cur, opn, sum, rfl, by simpa using hinv⟩
  | a :: R, P, closed, cur, opn, sum, hA, hinv => by
    obtain ⟨closed₁, cur₁, opn₁, sum₁, hstep, hinv₁⟩ := sweepStep_inv hA hinv
    obtain ⟨closed₂, cur₂, opn₂, sum₂, hrun, hinv₂⟩ :=
      foldlM_sweepStep_inv R (P ++ [a]) closed₁ cur₁ opn₁ sum₁ (by simpa using hA) hinv₁
    refine ⟨closed₂, cur₂, opn₂, sum₂, ?_, by simpa using hinv₂⟩
    simp only [List.map_cons, List.foldlM_cons, hstep, Except.ok_bind]
    exact hrun

/-- The whole sweep over a complete sorted list of events never panics; its groups hold the
chunks in the order of their ends, each group non-empty and connected and ending before the
next begins. -/
theorem sweep_spec [DecidableEq ι] {A : List (ι × Bool)} (hA : Schedule lo hi A) :
    ∃ groups sum, (A.map (eventRecord lo hi)).foldlM sweepStep ([], 0) = .ok (groups, sum) ∧
      groups.flatten = (A.filter (·.2)).map (·.1) ∧ (∀ g ∈ groups, g ≠ []) ∧
      groups.Pairwise (Before lo hi) ∧ ∀ g ∈ groups, Connected (Overlaps lo hi) (· ∈ g) := by
  cases A with
  | nil => exact ⟨[], 0, rfl, rfl, by simp, List.Pairwise.nil, by simp⟩
  | cons a R =>
    obtain ⟨j, b⟩ := a
    obtain rfl := hA.head_start
    have hfirst : sweepStep ([], 0) (eventRecord lo hi (j, false)) = .ok ([] ++ [[]], 1) := by
      simp [sweepStep, eventRecord]
    obtain ⟨closed, cur, opn, sum, hrun, hinv⟩ :=
      foldlM_sweepStep_inv R [(j, false)] [] [] [j] 1 hA (SweepInv.first j)
    -- every event has been processed, so nothing is open
    obtain rfl : opn = [] := List.eq_nil_iff_forall_not_mem.2 fun k hk =>
      ((hinv.mem_opn k).1 hk).2 (hA.complete k true)
    refine ⟨closed ++ [cur], sum, ?_, hinv.flatten_eq, fun g hg => ?_, hinv.separated,
      fun g hg => ?_⟩
    · simp only [List.map_cons, List.foldlM_cons, hfirst, Except.ok_bind]
      exact hrun
    · rcases List.mem_append.1 hg with hg | hg
      · exact hinv.closed_ne_nil g hg
      · obtain rfl := List.mem_singleton.1 hg
        simpa using hinv.cur_or_opn
    · rcases List.mem_append.1 hg with hg | hg
      · exact hinv.closed_connected g hg
      · obtain rfl := List.mem_singleton.1 hg
        exact hinv.current_connected.congr (by simp)

end Sweep

/-! ## From labelled events to chunks -/

/-- A record with its chunk mapped. -/
def GrouperRecord.map {D : Type} (f : C → D) (gr : GrouperRecord C) : GrouperRecord D :=
  ⟨gr.value, gr.startEnd, gr.chunk.map f⟩

theorem pushLast_map {D : Type} (f : C → D) (groups : List (List C)) (c : C) :
    pushLast (groups.map (·.map f)) (f c) = (pushLast groups c).map (·.map (·.map f)) := by
  cases h : groups.getLast? <;> simp [pushLast, h, List.getLast?_map, List.map_dropLast]

/-- The sweep does not look at the chunks: mapping them commutes with one step. -/
theorem sweepStep_map {D : Type} (f : C → D) (groups : List (List C)) (sum : ℤ)
    (gr : GrouperRecord C) :
    sweepStep (groups.map (·.map f), sum) (gr.map f) =
      (sweepStep (groups, sum) gr).map fun st => (st.1.map (·.map f), st.2) := by
  rcases gr with ⟨value, _ | _, _ | c⟩
  · by_cases h : sum + 1 = 1 <;> simp [sweepStep, GrouperRecord.map, h, Except.map]
  · by_cases h : sum + 1 = 1 <;> simp [sweepStep, GrouperRecord.map, h, Except.map]
  · simp [sweepStep, GrouperRecord.map, Except.map]
  · simp only [sweepStep, GrouperRecord.map, Option.map_some, reduceCtorEq, false_and,
      if_false, pushLast_map]
    cases pushLast groups c <;> rfl

/-- ... and with the whole loop, by induction on the records. -/
theorem foldlM_sweepStep_map {D : Type} (f : C → D) :
    ∀ (recs : List (GrouperRecord C)) (groups : List (List C)) (sum : ℤ),
      (recs.map (GrouperRecord.map f)).foldlM sweepStep (groups.map (·.map f), sum) =
        (recs.foldlM sweepStep (groups, sum)).map fun st => (st.1.map (·.map f), st.2)
  | [], _, _ => rfl
  | gr :: recs, groups, sum => by
    rw [List.map_cons, List.foldlM_cons, List.foldlM_cons, sweepStep_map]
    cases sweepStep (groups, sum) gr with
    | error e => rfl
    | ok st => exact foldlM_sweepStep_map f recs st.1 st.2

/-! ## The chunks' events, sorted -/

/-- The events of `n` chunks: each chunk's start and its end. -/
def events (n : ℕ) : List (Fin n × Bool) := List.finRange n ×ˢ [false, true]

section Events

variable {n : ℕ} (lo hi : Fin n → ℤ)

/-- The events in the order of the sort. -/
def sortedEvents : List (Fin n × Bool) :=
  (events n).mergeSort fun a b => keyLe (eventRecord lo hi a) (eventRecord lo hi b)

/-- The ends of the events are the chunks, in order. -/
theorem events_ends (n : ℕ) : ((events n).filter (·.2)).map (·.1) = List.finRange n := by
  simp [events, SProd.sprod, List.product, List.filter_flatMap, List.map_flatMap]

/-- The sorted events are a schedule: a sorted permutation of all the events. -/
theorem sortedEvents_schedule (hle : ∀ i, lo i ≤ hi i) : Schedule lo hi (sortedEvents lo hi) where
  nodup := (List.mergeSort_perm _ _).nodup_iff.2
    ((List.nodup_finRange n).product (by decide))
  complete j b := (List.mergeSort_perm _ _).mem_iff.2
    (List.mem_product.2 ⟨List.mem_finRange j, by cases b <;> simp⟩)
  sorted := @List.pairwise_mergeSort _ (fun a b => keyLe (eventRecord lo hi a) (eventRecord lo hi b))
    (fun a b c => keyLe_trans _ _ _) (fun a b => keyLe_total _ _) (events n)
  lo_le_hi := hle

end Events

/-! ## The sweep over the chunks -/

/-- A chunk's time range, read where every chunk has one. -/
def timeRangeOf (timestampMinMax : C → Option TimestampMinMax) (c : C) : TimestampMinMax :=
  (timestampMinMax c).getD ⟨0, 0, le_rfl⟩

section Chunks

variable (timestampMinMax : C → Option TimestampMinMax) (chunks : List C)

/-- The minimum of the `i`-th chunk's range. -/
def chunkMin (i : Fin chunks.length) : ℤ := (timeRangeOf timestampMinMax chunks[i]).min

/-- The maximum of the `i`-th chunk's range. -/
def chunkMax (i : Fin chunks.length) : ℤ := (timeRangeOf timestampMinMax chunks[i]).max

/-- The closed time ranges `[min, max]` of two chunks share a timestamp. -/
def OverlapsAt (c d : C) : Prop :=
  ∃ r s, timestampMinMax c = some r ∧ timestampMinMax d = some s ∧ r.min ≤ s.max ∧ s.min ≤ r.max

variable {timestampMinMax chunks}

theorem OverlapsAt.symm {c d : C} (h : OverlapsAt timestampMinMax c d) :
    OverlapsAt timestampMinMax d c := by
  obtain ⟨r, s, hr, hs, h₁, h₂⟩ := h
  exact ⟨s, r, hs, hr, h₂, h₁⟩

/-- Every `expect` of a time range succeeds when every chunk has one. -/
theorem mapM_expectTimeRange :
    ∀ {chunks : List C}, (∀ c ∈ chunks, timestampMinMax c = some (timeRangeOf timestampMinMax c)) →
      (chunks.zip (chunks.map timestampMinMax)).mapM expectTimeRange =
        .ok (chunks.map fun c => (c, timeRangeOf timestampMinMax c))
  | [], _ => rfl
  | c :: chunks, h => by
    have hc : expectTimeRange (c, timestampMinMax c) = .ok (c, timeRangeOf timestampMinMax c) := by
      simp [expectTimeRange, h c List.mem_cons_self]
    have hrest := mapM_expectTimeRange fun d hd => h d (List.mem_cons_of_mem c hd)
    simp [List.mapM_cons, hc, hrest]

/-- The records of the chunks are the records of their events, each end naming its chunk. -/
theorem grouperRecords_eq_events (chunks : List C) :
    grouperRecords (chunks.map fun c => (c, timeRangeOf timestampMinMax c)) =
      (events chunks.length).map fun e =>
        (eventRecord (chunkMin timestampMinMax chunks) (chunkMax timestampMinMax chunks) e).map
          (chunks[·]) := by
  simp only [grouperRecords, events, SProd.sprod, List.product, List.flatMap_map, List.map_flatMap,
    List.map_cons, List.map_nil, eventRecord, GrouperRecord.map, chunkMin, chunkMax, if_true,
    Bool.false_eq_true, if_false, Option.map_some, Option.map_none]
  -- the chunks are their own entries, read by index
  conv_lhs => rw [← List.map_getElem_finRange chunks]
  rw [List.flatMap_map]
  rfl

/-- Sorting the records sorts the events: the key reads only the time and the kind of a record,
which naming its chunk leaves alone. -/
theorem mergeSort_grouperRecords (chunks : List C) :
    (grouperRecords (chunks.map fun c => (c, timeRangeOf timestampMinMax c))).mergeSort keyLe =
      ((sortedEvents (chunkMin timestampMinMax chunks) (chunkMax timestampMinMax chunks)).map
        (eventRecord (chunkMin timestampMinMax chunks) (chunkMax timestampMinMax chunks))).map
          (GrouperRecord.map (chunks[·])) := by
  rw [grouperRecords_eq_events, List.map_map, sortedEvents]
  refine (List.map_mergeSort ?_).symm
  intro a _ b _
  rfl

/-- With every time range known, the function runs the sweep over the sorted events and names
the chunk of each index in the groups. -/
theorem groupPotentialDuplicates_eq_sweep
    (hts : ∀ c ∈ chunks, timestampMinMax c = some (timeRangeOf timestampMinMax c)) :
    groupPotentialDuplicates timestampMinMax chunks =
      (((sortedEvents (chunkMin timestampMinMax chunks) (chunkMax timestampMinMax chunks)).map
        (eventRecord (chunkMin timestampMinMax chunks) (chunkMax timestampMinMax chunks))).foldlM
          sweepStep ([], 0)).map fun st => st.1.map (·.map (chunks[·])) := by
  have hany : (chunks.map timestampMinMax).any Option.isNone = false := by
    simp only [List.any_map, List.any_eq_false, Function.comp_apply]
    intro c hc
    simp [hts c hc]
  have hrun := foldlM_sweepStep_map (chunks[·])
    ((sortedEvents (chunkMin timestampMinMax chunks) (chunkMax timestampMinMax chunks)).map
      (eventRecord (chunkMin timestampMinMax chunks) (chunkMax timestampMinMax chunks))) [] 0
  simp only [List.map_nil] at hrun
  simp only [groupPotentialDuplicates, hany, Bool.false_eq_true, if_false,
    mapM_expectTimeRange hts, Except.ok_bind, mergeSort_grouperRecords, hrun]
  cases ((sortedEvents (chunkMin timestampMinMax chunks) (chunkMax timestampMinMax chunks)).map
      (eventRecord (chunkMin timestampMinMax chunks) (chunkMax timestampMinMax chunks))).foldlM
        sweepStep ([], 0) <;> rfl

/-- A chunk without a time range makes all the chunks one group. -/
theorem groupPotentialDuplicates_of_none (h : ∃ c ∈ chunks, timestampMinMax c = none) :
    groupPotentialDuplicates timestampMinMax chunks = .ok [chunks] := by
  obtain ⟨c, hc, hnone⟩ := h
  have hany : (chunks.map timestampMinMax).any Option.isNone = true :=
    List.any_eq_true.2 ⟨none, List.mem_map.2 ⟨c, hc, hnone⟩, rfl⟩
  simp [groupPotentialDuplicates, hany]

/-- Overlapping ranges of two indices are overlapping ranges of their chunks. -/
theorem overlapsAt_of_overlaps
    (hts : ∀ c ∈ chunks, timestampMinMax c = some (timeRangeOf timestampMinMax c))
    {i j : Fin chunks.length}
    (h : Overlaps (chunkMin timestampMinMax chunks) (chunkMax timestampMinMax chunks) i j) :
    OverlapsAt timestampMinMax chunks[i] chunks[j] :=
  ⟨_, _, hts _ (List.getElem_mem _), hts _ (List.getElem_mem _), h.1, h.2⟩

/-- A range that ends before another begins does not meet it. -/
theorem not_overlapsAt_of_lt
    (hts : ∀ c ∈ chunks, timestampMinMax c = some (timeRangeOf timestampMinMax c))
    {i j : Fin chunks.length} (h : chunkMax timestampMinMax chunks i < chunkMin timestampMinMax chunks j) :
    ¬ OverlapsAt timestampMinMax chunks[i] chunks[j] := by
  rintro ⟨r, s, hr, hs, -, hsr⟩
  have hmi : chunks[i] ∈ chunks := by simp
  have hmj : chunks[j] ∈ chunks := by simp
  rw [hts _ hmi] at hr
  rw [hts _ hmj] at hs
  rw [← Option.some.inj hr, ← Option.some.inj hs] at hsr
  exact absurd hsr (not_le.2 h)

/-- With every time range known, the groups are the components of the overlap relation: the
sweep's groups of indices, named by their chunks. -/
theorem groupPotentialDuplicates_isComponents (hsome : ∀ c ∈ chunks, (timestampMinMax c).isSome) :
    ∃ groups, groupPotentialDuplicates timestampMinMax chunks = .ok groups ∧
      IsComponents (OverlapsAt timestampMinMax) chunks groups := by
  have hts : ∀ c ∈ chunks, timestampMinMax c = some (timeRangeOf timestampMinMax c) := by
    intro c hc
    obtain ⟨r, hr⟩ := Option.isSome_iff_exists.1 (hsome c hc)
    simp [timeRangeOf, hr]
  have hA := sortedEvents_schedule (chunkMin timestampMinMax chunks)
    (chunkMax timestampMinMax chunks) fun i => (timeRangeOf timestampMinMax chunks[i]).min_le_max
  obtain ⟨groups, sum, hrun, hflat, hne, hsep, hconn⟩ := sweep_spec hA
  refine ⟨groups.map (·.map (chunks[·])), ?_, ⟨?_, ?_, ?_, ?_⟩⟩
  · rw [groupPotentialDuplicates_eq_sweep hts, hrun]
    rfl
  · -- the ends of the sorted events are a permutation of all the ends, one per chunk
    rw [← List.map_flatten, hflat]
    have hsorted : (sortedEvents (chunkMin timestampMinMax chunks)
        (chunkMax timestampMinMax chunks)).Perm (events chunks.length) :=
      List.mergeSort_perm _ _
    have hchunks : (List.finRange chunks.length).map (chunks[·]) = chunks :=
      List.map_getElem_finRange chunks
    have hperm := ((hsorted.filter (·.2)).map (·.1)).map (chunks[·])
    rwa [events_ends, hchunks] at hperm
  · intro g' hg'
    obtain ⟨g, hg, rfl⟩ := List.mem_map.1 hg'
    simpa using hne g hg
  · intro g' hg'
    obtain ⟨g, hg, rfl⟩ := List.mem_map.1 hg'
    refine ((hconn g hg).image (chunks[·]) fun i j _ _ h => overlapsAt_of_overlaps hts h).congr
      fun c => ?_
    simp [List.mem_map]
  · refine hsep.map _ fun g h hgh c hc d hd => ?_
    obtain ⟨i, hi, rfl⟩ := List.mem_map.1 hc
    obtain ⟨j, hj, rfl⟩ := List.mem_map.1 hd
    exact not_overlapsAt_of_lt hts (hgh i hi j hj)

end Chunks

theorem groupPotentialDuplicates_spec (timestampMinMax : C → Option TimestampMinMax)
    (chunks : List C) :
    ((∃ c ∈ chunks, timestampMinMax c = none) →
      groupPotentialDuplicates timestampMinMax chunks = .ok [chunks]) ∧
    ((∀ c ∈ chunks, (timestampMinMax c).isSome) →
      ∃ groups, groupPotentialDuplicates timestampMinMax chunks = .ok groups ∧
        IsComponents (OverlapsAt timestampMinMax) chunks groups ∧
        ∀ c ∈ chunks, ∀ d, (∃ g ∈ groups, c ∈ g ∧ d ∈ g) ↔
          Relation.ReflTransGen (Within (OverlapsAt timestampMinMax) (· ∈ chunks)) c d) := by
  refine ⟨groupPotentialDuplicates_of_none, fun hsome => ?_⟩
  obtain ⟨groups, hres, hcomp⟩ := groupPotentialDuplicates_isComponents hsome
  exact ⟨groups, hres, hcomp, fun c hc d => hcomp.sameBlock_iff (fun _ _ => OverlapsAt.symm) hc⟩

/-- Chunks numbered by their start, each over `[c, c + 1]`. -/
def touchingRanges (c : ℕ) : Option TimestampMinMax := some ⟨c, c + 1, by omega⟩

/-- The chunks over `[0, 1]`, `[5, 6]` and `[1, 2]`: the first and the last touch at 1 and share
a group. -/
theorem groupPotentialDuplicates_touching :
    ∃ groups, groupPotentialDuplicates touchingRanges [0, 5, 1] = .ok groups ∧
      IsComponents (OverlapsAt touchingRanges) [0, 5, 1] groups ∧ ∃ g ∈ groups, 0 ∈ g ∧ 1 ∈ g := by
  obtain ⟨groups, hres, hcomp, hiff⟩ :=
    (groupPotentialDuplicates_spec touchingRanges [0, 5, 1]).2 (by simp [touchingRanges])
  have htouch : OverlapsAt touchingRanges 0 1 := ⟨_, _, rfl, rfl, by simp, by simp⟩
  exact ⟨groups, hres, hcomp, (hiff 0 (by simp) 1).2 (.single ⟨by simp, by simp, htouch⟩)⟩

end IoxCore.IoxQuery.Overlap
