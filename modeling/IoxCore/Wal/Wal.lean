import IoxCore.Wal.Segment
import Mathlib.Data.List.Perm.Basic
import Mathlib.Data.Finset.Union
import Mathlib.Data.Nat.Digits.Defs
import Mathlib.Logic.Equiv.List

/-!
# The write-ahead log and its two background tasks

`Wal` (wal/src/lib.rs) buffers ops and lets two tasks persist them.

* `write_op` pushes the op onto the current `WalBuffer` under the buffer lock and returns that
  buffer's flush notification receiver.
* The flusher task (`flush_buffer_background_task`), on each tick, swaps a non-empty buffer for
  a fresh one under the buffer lock and sends the filled buffer to the I/O thread over a channel
  of depth 1, waiting while it is full.
* The I/O thread (`WriterIoThread::run`) receives a buffer, encodes its ops, and under the
  segments lock writes them to the open segment, sends the `WriteResult` on the buffer's
  notification channel, and on success adds the batch's sequence numbers to `open_segment_ids`.
* `rotate` creates the next segment file before taking the segments lock, then under the lock
  swaps it in as the open segment, closes the old one and takes `open_segment_ids`.

## The model

The WAL and its two tasks are one state machine; an `Event` is one atomic step of one of them,
and an interleaving is a list of events. A step that is not enabled leaves the state unchanged.
The steps under the segments lock are atomic; a rotation that has created its file but not yet
taken the lock is kept in `rotating`, and several may be pending. The directory starts empty and
I/O does not fail, as the WAL's contract assumes; `next_id_source` does not wrap. Files are byte
lists by segment id, and a watch channel is a number. The model also records what callers
observe: every notification sent, every value `rotate` returned, and every `write_op` with the
buffer it joined.
-/

namespace IoxCore.Wal

set_option linter.dupNamespace false

/-- `WalBuffer`: its ops in write order, and the identity of its watch channel
(`notify_flush`, `flush_notification`). -/
structure WalBuffer (Op : Type) where
  id : ℕ
  ops : List (SequencedWalOp Op)

/-- `WriteResult`. -/
inductive WriteResult
  | ok (summary : WriteSummary)
  | err (e : ChunkSizeTooLarge)

/-- `Segments`, the state behind the segments lock. -/
structure Segments where
  closedSegments : List ClosedSegment
  openSegment : OpenSegmentFileWriter
  openSegmentIds : Finset ℕ

/-- The WAL, its flusher task and its I/O thread. -/
structure Wal (Op : Type) where
  /-- The segment files in the root directory, by segment id. -/
  dir : ℕ → List UInt8
  /-- `next_id_source`. -/
  nextIdSource : ℕ
  /-- `Wal::segments`. -/
  segments : Segments
  /-- `Wal::buffer`. -/
  buffer : WalBuffer Op
  /-- A filled buffer the flusher task has swapped out and is sending. -/
  sending : Option (WalBuffer Op)
  /-- The batch channel (depth 1). -/
  queued : Option (WalBuffer Op)
  /-- The buffer the I/O thread has received and not yet written. -/
  received : Option (WalBuffer Op)
  /-- New segment writers of `rotate` calls that have not yet taken the lock. -/
  rotating : List OpenSegmentFileWriter
  /-- Every flush notification sent, with its buffer, in order. -/
  notified : List (WalBuffer Op × WriteResult)
  /-- Every value `rotate` returned, in order. -/
  rotated : List (ClosedSegment × Finset ℕ)
  /-- Every `write_op`, with the buffer whose notification it returned. -/
  written : List (SequencedWalOp Op × ℕ)

/-- One atomic step of the WAL's callers or tasks. -/
inductive Event (Op : Type)
  /-- `Wal::write_op`. -/
  | writeOp (op : SequencedWalOp Op)
  /-- The flusher's interval fires. -/
  | tick
  /-- The flusher's `enqueue_batch` completes. -/
  | send
  /-- The I/O thread receives a batch. -/
  | recv
  /-- The I/O thread writes its batch under the segments lock. -/
  | flush
  /-- A `rotate` call creates its new segment file. -/
  | rotateCreate
  /-- The pending rotation at this position takes the segments lock and swaps. -/
  | rotateSwap (i : ℕ)

section Steps

variable {Op : Type} (c : Codec Op)

/-- `Wal::new` on an empty directory: segment 0 is open and the buffer is empty. -/
def Wal.new : Wal Op where
  dir := Function.update (fun _ => []) 0 (OpenSegmentFileWriter.new 0).2
  nextIdSource := 1
  segments := ⟨[], (OpenSegmentFileWriter.new 0).1, ∅⟩
  buffer := ⟨0, []⟩
  sending := none
  queued := none
  received := none
  rotating := []
  notified := []
  rotated := []
  written := []

/-- The sequence numbers of a batch, as the I/O thread collects them: each op's
set, added in turn (`Extend<SequenceNumberSet>`). -/
def batchIds (ops : List (SequencedWalOp Op)) : Finset ℕ :=
  ops.foldl (fun acc o => acc ∪ o.ids) ∅

/-- `Wal::write_op`. -/
def Wal.writeOp (σ : Wal Op) (op : SequencedWalOp Op) : Wal Op :=
  { σ with buffer := { σ.buffer with ops := σ.buffer.ops ++ [op] },
           written := σ.written ++ [(op, σ.buffer.id)] }

/-- The flusher's loop body up to the enqueue: an empty buffer stays, a filled one
is swapped for a fresh buffer. -/
def Wal.tick (σ : Wal Op) : Wal Op :=
  match σ.sending with
  | some _ => σ
  | none =>
    if σ.buffer.ops = [] then σ
    else { σ with sending := some σ.buffer, buffer := ⟨σ.buffer.id + 1, []⟩ }

/-- The flusher's `enqueue_batch`, once the channel has room. -/
def Wal.send (σ : Wal Op) : Wal Op :=
  match σ.sending, σ.queued with
  | some b, none => { σ with sending := none, queued := some b }
  | _, _ => σ

/-- The I/O thread's `blocking_recv`. -/
def Wal.recv (σ : Wal Op) : Wal Op :=
  match σ.queued, σ.received with
  | some b, none => { σ with queued := none, received := some b }
  | _, _ => σ

/-- The I/O thread's locked section: write to the open segment, notify, and on
success `add_set` the batch's sequence numbers. -/
def Wal.flush (σ : Wal Op) : Wal Op :=
  match σ.received with
  | none => σ
  | some b =>
    match σ.segments.openSegment.write c (batchData c b.ops) with
    | .ok (summary, w, buf) =>
      { σ with received := none,
               dir := Function.update σ.dir w.id (σ.dir w.id ++ buf),
               segments := { σ.segments with
                 openSegment := w,
                 openSegmentIds := σ.segments.openSegmentIds ∪ batchIds b.ops },
               notified := σ.notified ++ [(b, .ok summary)] }
    | .error e => { σ with received := none, notified := σ.notified ++ [(b, .err e)] }

/-- The first half of `Wal::rotate`: the new segment file, created outside the lock. -/
def Wal.rotateCreate (σ : Wal Op) : Wal Op :=
  { σ with dir := Function.update σ.dir σ.nextIdSource (OpenSegmentFileWriter.new σ.nextIdSource).2,
           nextIdSource := σ.nextIdSource + 1,
           rotating := σ.rotating ++ [(OpenSegmentFileWriter.new σ.nextIdSource).1] }

/-- The second half of `Wal::rotate`, under the lock: swap in the new segment,
close the old one, take `open_segment_ids`, and return both. -/
def Wal.rotateSwap (σ : Wal Op) (i : ℕ) : Wal Op :=
  match σ.rotating[i]? with
  | none => σ
  | some w =>
    { σ with segments := ⟨σ.segments.closedSegments ++ [σ.segments.openSegment.close], w, ∅⟩,
             rotating := σ.rotating.erase w,
             rotated := σ.rotated ++ [(σ.segments.openSegment.close, σ.segments.openSegmentIds)] }

/-- One event. -/
def Wal.step (σ : Wal Op) : Event Op → Wal Op
  | .writeOp op => σ.writeOp op
  | .tick => σ.tick
  | .send => σ.send
  | .recv => σ.recv
  | .flush => σ.flush c
  | .rotateCreate => σ.rotateCreate
  | .rotateSwap i => σ.rotateSwap i

/-- A run of events. -/
def Wal.run (σ : Wal Op) (es : List (Event Op)) : Wal Op := es.foldl (Wal.step c) σ

end Steps

/-! ### What was acknowledged -/

section Acked

variable {Op : Type}

/-- The flushes notified with `WriteResult::Ok` for segment `s`, in order. -/
def ackedIn (s : ℕ) (l : List (WalBuffer Op × WriteResult)) : List (WalBuffer Op × WriteSummary) :=
  l.filterMap fun n =>
    match n.2 with
    | .ok sm => if sm.segmentId = s then some (n.1, sm) else none
    | .err _ => none

/-- Each acknowledged batch's ops with its `total_bytes`. -/
def entriesOf (l : List (WalBuffer Op × WriteSummary)) : List (List (SequencedWalOp Op) × ℕ) :=
  l.map fun p => (p.1.ops, p.2.totalBytes)

/-- The union of the sequence numbers of the ops of acknowledged batches. -/
def idsOf (l : List (WalBuffer Op × WriteSummary)) : Finset ℕ :=
  (l.flatMap fun p => p.1.ops.flatMap fun o => o.tableWriteSequenceNumbers.map (·.2)).toFinset

@[simp]
theorem ackedIn_nil (s : ℕ) : ackedIn s ([] : List (WalBuffer Op × WriteResult)) = [] := rfl

theorem ackedIn_append_ok (s : ℕ) (l : List (WalBuffer Op × WriteResult)) (b : WalBuffer Op)
    (sm : WriteSummary) :
    ackedIn s (l ++ [(b, .ok sm)]) = ackedIn s l ++ if sm.segmentId = s then [(b, sm)] else [] := by
  by_cases h : sm.segmentId = s <;> simp [ackedIn, h]

@[simp]
theorem ackedIn_append_err (s : ℕ) (l : List (WalBuffer Op × WriteResult)) (b : WalBuffer Op)
    (e : ChunkSizeTooLarge) : ackedIn s (l ++ [(b, .err e)]) = ackedIn s l := by
  simp [ackedIn]

theorem idsOf_append_singleton (l : List (WalBuffer Op × WriteSummary)) (b : WalBuffer Op)
    (sm : WriteSummary) : idsOf (l ++ [(b, sm)]) = idsOf l ∪ batchIds b.ops := by
  have hfold : ∀ (acc : Finset ℕ) (ops : List (SequencedWalOp Op)),
      ops.foldl (fun acc o => acc ∪ o.ids) acc =
        acc ∪ (ops.flatMap fun o => o.tableWriteSequenceNumbers.map (·.2)).toFinset := by
    intro acc ops
    induction ops generalizing acc with
    | nil => simp
    | cons o ops ih =>
      rw [List.foldl_cons, ih]
      simp [SequencedWalOp.ids, List.toFinset_append, Finset.union_assoc]
  simp [idsOf, batchIds, hfold, List.toFinset_append]

end Acked

/-! ### The segment files -/

section SegmentFiles

variable {Op : Type} (c : Codec Op)

/-- What the invariant of the segment files reads of the state. -/
structure SegView (Op : Type) where
  dir : ℕ → List UInt8
  nextIdSource : ℕ
  segments : Segments
  rotating : List OpenSegmentFileWriter
  notified : List (WalBuffer Op × WriteResult)
  rotated : List (ClosedSegment × Finset ℕ)

/-- The segment-file part of a state. -/
def Wal.segView (σ : Wal Op) : SegView Op :=
  ⟨σ.dir, σ.nextIdSource, σ.segments, σ.rotating, σ.notified, σ.rotated⟩

/-- The ids of the pending and the closed segments. -/
def SegView.otherIds (v : SegView Op) : List ℕ :=
  v.rotating.map (·.id) ++ v.segments.closedSegments.map (·.id)

theorem mem_otherIds_of_rotating {v : SegView Op} {w : OpenSegmentFileWriter} (hw : w ∈ v.rotating) :
    w.id ∈ v.otherIds :=
  List.mem_append_left _ (List.mem_map_of_mem hw)

theorem mem_otherIds_of_closed {v : SegView Op} {cs : ClosedSegment}
    (hcs : cs ∈ v.segments.closedSegments) : cs.id ∈ v.otherIds :=
  List.mem_append_right _ (List.mem_map_of_mem hcs)

/-- Segment `id` holds its header and the entries of its acknowledged flushes,
with their totals, and `size` is the last total. -/
structure SegmentHolds (v : SegView Op) (id size : ℕ) : Prop where
  file : v.dir id =
    header id ++ ((entriesOf (ackedIn id v.notified)).map fun e => entryOf c (batchData c e.1)).flatten
  entries : Entries c 16 (entriesOf (ackedIn id v.notified))
  size : size = lastTotal 16 (entriesOf (ackedIn id v.notified))

/-- The invariant of the segment files. -/
structure SegInv (v : SegView Op) : Prop where
  open_holds : SegmentHolds c v v.segments.openSegment.id v.segments.openSegment.bytesWritten
  closed_holds : ∀ cs ∈ v.segments.closedSegments, SegmentHolds c v cs.id cs.size
  rotating_fresh : ∀ w ∈ v.rotating,
    v.dir w.id = header w.id ∧ w.bytesWritten = 16 ∧ ackedIn w.id v.notified = []
  open_ids : v.segments.openSegmentIds = idsOf (ackedIn v.segments.openSegment.id v.notified)
  rotated : ∀ p ∈ v.rotated,
    p.1 ∈ v.segments.closedSegments ∧ p.2 = idsOf (ackedIn p.1.id v.notified)
  nodup : (v.segments.openSegment.id :: v.otherIds).Nodup
  open_lt : v.segments.openSegment.id < v.nextIdSource
  other_lt : ∀ k ∈ v.otherIds, k < v.nextIdSource
  acked_fresh : ∀ k, v.nextIdSource ≤ k → ackedIn k v.notified = []

variable {c} {v : SegView Op} {σ : Wal Op}

/-- A segment whose file is its header and that acknowledged nothing holds, with size 16. -/
theorem segmentHolds_header {id : ℕ} (hfile : v.dir id = header id)
    (hacked : ackedIn id v.notified = []) : SegmentHolds c v id 16 :=
  ⟨by simp [hfile, hacked, entriesOf], by simp [hacked, entriesOf, Entries],
    by simp [hacked, entriesOf]⟩

/-- `SegmentHolds` reads only the segment's own file and acknowledgements. -/
theorem SegmentHolds.congr {v v' : SegView Op} {id size : ℕ} (h : SegmentHolds c v id size)
    (hdir : v'.dir id = v.dir id) (hacked : ackedIn id v'.notified = ackedIn id v.notified) :
    SegmentHolds c v' id size :=
  ⟨by rw [hdir, hacked]; exact h.file, by rw [hacked]; exact h.entries,
    by rw [hacked]; exact h.size⟩

theorem segInv_new : SegInv c (Wal.new : Wal Op).segView where
  open_holds := segmentHolds_header (by simp [Wal.new, Wal.segView, OpenSegmentFileWriter.new]) rfl
  closed_holds := by simp [Wal.new, Wal.segView]
  rotating_fresh := by simp [Wal.new, Wal.segView]
  open_ids := by simp [Wal.new, Wal.segView, idsOf]
  rotated := by simp [Wal.new, Wal.segView]
  nodup := by simp [Wal.new, Wal.segView, SegView.otherIds]
  open_lt := by simp [Wal.new, Wal.segView, OpenSegmentFileWriter.new]
  other_lt := by simp [Wal.new, Wal.segView, SegView.otherIds]
  acked_fresh := by simp [Wal.new, Wal.segView]

/-- An error notification acknowledges nothing. -/
theorem segInv_notify_err (h : SegInv c v) (b : WalBuffer Op)
    (e : ChunkSizeTooLarge) : SegInv c { v with notified := v.notified ++ [(b, .err e)] } where
  open_holds := h.open_holds.congr rfl (ackedIn_append_err _ _ _ _)
  closed_holds cs hcs := (h.closed_holds cs hcs).congr rfl (ackedIn_append_err _ _ _ _)
  rotating_fresh w hw := by simpa using h.rotating_fresh w hw
  open_ids := by simpa using h.open_ids
  rotated p hp := by simpa using h.rotated p hp
  nodup := h.nodup
  open_lt := h.open_lt
  other_lt := h.other_lt
  acked_fresh k hk := by simpa using h.acked_fresh k hk

/-- A successful write appends its entry to the open segment and acknowledges it
there; every other segment keeps its file and its acknowledgements. -/
theorem segInv_write_ok (h : SegInv c v) (b : WalBuffer Op)
    {sm : WriteSummary} {w : OpenSegmentFileWriter} {buf : List UInt8}
    (hw : v.segments.openSegment.write c (batchData c b.ops) = .ok (sm, w, buf)) :
    SegInv c { v with dir := Function.update v.dir w.id (v.dir w.id ++ buf),
                      segments := { v.segments with
                        openSegment := w,
                        openSegmentIds := v.segments.openSegmentIds ∪ batchIds b.ops },
                      notified := v.notified ++ [(b, .ok sm)] } := by
  obtain ⟨hd, hcomp, rfl, rfl, rfl⟩ := (write_eq_ok_iff c).mp hw
  have hfresh : v.segments.openSegment.id ∉ v.otherIds := (List.nodup_cons.mp h.nodup).1
  have hother : ∀ k ∈ v.otherIds, k ≠ v.segments.openSegment.id := fun k hk heq => hfresh (heq ▸ hk)
  -- every other segment keeps its file and its acknowledged flushes
  have hdir : ∀ k, k ≠ v.segments.openSegment.id →
      Function.update v.dir v.segments.openSegment.id
        (v.dir v.segments.openSegment.id ++ entryOf c (batchData c b.ops)) k = v.dir k :=
    fun k hk => Function.update_of_ne hk _ _
  have hacked : ∀ k, k ≠ v.segments.openSegment.id →
      ackedIn k (v.notified ++ [(b, .ok ⟨v.segments.openSegment.bytesWritten +
        (entryOf c (batchData c b.ops)).length, (entryOf c (batchData c b.ops)).length,
        v.segments.openSegment.id⟩)]) = ackedIn k v.notified :=
    fun k hk => by simp [ackedIn_append_ok, Ne.symm hk]
  refine ⟨⟨?_, ?_, ?_⟩, ?_, ?_, ?_, ?_, h.nodup, h.open_lt, h.other_lt, ?_⟩
  · -- the open segment gains the new entry
    simp [ackedIn_append_ok, h.open_holds.file, entriesOf]
  · simp only [ackedIn_append_ok, if_pos, entriesOf, List.map_append, List.map_singleton]
    exact (entries_append_singleton c _ _ _ _).mpr
      ⟨h.open_holds.entries, hd, hcomp,
        congrArg (· + (entryOf c (batchData c b.ops)).length) h.open_holds.size⟩
  · simp [ackedIn_append_ok, entriesOf]
  · intro cs hcs
    have hk := hother cs.id (mem_otherIds_of_closed hcs)
    exact (h.closed_holds cs hcs).congr (hdir _ hk) (hacked _ hk)
  · intro w' hw'
    have hk := hother w'.id (mem_otherIds_of_rotating hw')
    simpa [hdir _ hk, hacked _ hk] using h.rotating_fresh w' hw'
  · simp [ackedIn_append_ok, h.open_ids, idsOf_append_singleton]
  · intro p hp
    obtain ⟨hmem, hset⟩ := h.rotated p hp
    have hk := hother p.1.id (mem_otherIds_of_closed hmem)
    exact ⟨hmem, by rw [hacked _ hk]; exact hset⟩
  · intro k hk
    have hk' : v.nextIdSource ≤ k := hk
    have hko : k ≠ v.segments.openSegment.id := by have := h.open_lt; omega
    rw [hacked _ hko]
    exact h.acked_fresh k hk

/-- Creating the next segment file: a fresh id, a file holding only the header. -/
theorem segInv_create (h : SegInv c v) :
    SegInv c { v with dir := Function.update v.dir v.nextIdSource (header v.nextIdSource),
                      nextIdSource := v.nextIdSource + 1,
                      rotating := v.rotating ++ [⟨v.nextIdSource, 16⟩] } := by
  have hdir : ∀ k, k < v.nextIdSource →
      Function.update v.dir v.nextIdSource (header v.nextIdSource) k = v.dir k :=
    fun k hk => Function.update_of_ne (Nat.ne_of_lt hk) _ _
  have hother : ∀ k ∈ v.otherIds, k < v.nextIdSource := h.other_lt
  refine ⟨h.open_holds.congr (hdir _ h.open_lt) rfl, ?_, ?_, h.open_ids, h.rotated, ?_, ?_, ?_, ?_⟩
  · intro cs hcs
    exact (h.closed_holds cs hcs).congr (hdir _ (hother _ (mem_otherIds_of_closed hcs))) rfl
  · intro w hw
    rcases List.mem_append.mp hw with hw | hw
    · have hk := hdir _ (hother _ (mem_otherIds_of_rotating hw))
      obtain ⟨hf, hrest⟩ := h.rotating_fresh w hw
      exact ⟨hk.trans hf, hrest⟩
    · rw [List.mem_singleton] at hw
      subst hw
      exact ⟨Function.update_self _ _ _, rfl, h.acked_fresh _ le_rfl⟩
  · have hfresh : v.nextIdSource ∉ v.segments.openSegment.id :: v.otherIds := by
      intro hm
      rcases List.mem_cons.mp hm with hm | hm
      · have := h.open_lt; omega
      · have := hother _ hm; omega
    have hperm : List.Perm (v.segments.openSegment.id ::
        ((v.rotating ++ [(⟨v.nextIdSource, 16⟩ : OpenSegmentFileWriter)]).map (·.id) ++
          v.segments.closedSegments.map (·.id)))
        (v.nextIdSource :: v.segments.openSegment.id :: v.otherIds) := by
      simp only [SegView.otherIds, List.map_append, List.map_singleton, List.append_assoc,
        List.singleton_append]
      exact (List.perm_middle.cons _).trans (List.Perm.swap _ _ _)
    exact hperm.nodup_iff.mpr (List.nodup_cons.mpr ⟨hfresh, h.nodup⟩)
  · exact Nat.lt_succ_of_lt h.open_lt
  · intro k hk
    rcases List.mem_append.mp hk with hk | hk
    · rcases List.mem_map.mp hk with ⟨w, hw, rfl⟩
      rcases List.mem_append.mp hw with hw | hw
      · exact Nat.lt_succ_of_lt (hother _ (mem_otherIds_of_rotating hw))
      · rw [List.mem_singleton] at hw
        subst hw
        exact Nat.lt_succ_self _
    · rcases List.mem_map.mp hk with ⟨cs, hcs, rfl⟩
      exact Nat.lt_succ_of_lt (hother _ (mem_otherIds_of_closed hcs))
  · intro k hk
    have hk' : v.nextIdSource + 1 ≤ k := hk
    exact h.acked_fresh k (by omega)

/-- A rotation's swap: the pending writer becomes the open segment, and the old open
segment is closed with the sequence numbers collected for it. -/
theorem segInv_swap (h : SegInv c v) {w : OpenSegmentFileWriter} (hw : w ∈ v.rotating) :
    SegInv c { v with segments := ⟨v.segments.closedSegments ++ [v.segments.openSegment.close], w, ∅⟩,
                      rotating := v.rotating.erase w,
                      rotated := v.rotated ++
                        [(v.segments.openSegment.close, v.segments.openSegmentIds)] } := by
  obtain ⟨hfile, hsize, hacked⟩ := h.rotating_fresh w hw
  have hr : List.Perm v.rotating (w :: v.rotating.erase w) := List.perm_cons_erase hw
  -- the segment ids are only rearranged
  have hmove : List.Perm ((v.rotating.erase w).map (·.id) ++
      (v.segments.closedSegments ++ [v.segments.openSegment.close]).map (·.id))
      (v.segments.openSegment.id :: ((v.rotating.erase w).map (·.id) ++
        v.segments.closedSegments.map (·.id))) := by
    rw [List.map_append, List.map_singleton, ← List.append_assoc]
    exact List.perm_append_singleton _ _
  have hperm : List.Perm (w.id :: ((v.rotating.erase w).map (·.id) ++
      (v.segments.closedSegments ++ [v.segments.openSegment.close]).map (·.id)))
      (v.segments.openSegment.id :: v.otherIds) :=
    (hmove.cons w.id).trans ((List.Perm.swap _ _ _).trans
      (((hr.map (·.id)).symm.append_right _).cons _))
  refine ⟨hsize ▸ segmentHolds_header hfile hacked, ?_, ?_, ?_, ?_, hperm.nodup_iff.mpr h.nodup,
    h.other_lt _ (mem_otherIds_of_rotating hw), ?_, h.acked_fresh⟩
  · intro cs hcs
    rcases List.mem_append.mp hcs with hcs | hcs
    · exact (h.closed_holds cs hcs).congr rfl rfl
    · rw [List.mem_singleton] at hcs
      subst hcs
      exact h.open_holds.congr rfl rfl
  · intro w' hw'
    exact h.rotating_fresh w' (List.mem_of_mem_erase hw')
  · simp [hacked, idsOf]
  · intro p hp
    rcases List.mem_append.mp hp with hp | hp
    · obtain ⟨hmem, hset⟩ := h.rotated p hp
      exact ⟨List.mem_append_left _ hmem, hset⟩
    · rw [List.mem_singleton] at hp
      subst hp
      exact ⟨List.mem_append_right _ (List.mem_singleton_self _), h.open_ids⟩
  · intro k hk
    have hk' := hperm.subset (List.mem_cons_of_mem _ hk)
    rcases List.mem_cons.mp hk' with rfl | hk'
    · exact h.open_lt
    · exact h.other_lt k hk'

/-! #### The steps, on the segment files -/

theorem segView_writeOp (σ : Wal Op) (op : SequencedWalOp Op) :
    (σ.writeOp op).segView = σ.segView := rfl

theorem segView_tick (σ : Wal Op) : σ.tick.segView = σ.segView := by
  unfold Wal.tick
  split
  · rfl
  · split <;> rfl

theorem segView_send (σ : Wal Op) : σ.send.segView = σ.segView := by
  unfold Wal.send
  split <;> rfl

theorem segView_recv (σ : Wal Op) : σ.recv.segView = σ.segView := by
  unfold Wal.recv
  split <;> rfl

theorem segInv_flush (h : SegInv c σ.segView) : SegInv c (σ.flush c).segView := by
  unfold Wal.flush
  split
  · exact h
  · rename_i b _
    split
    · rename_i sm w buf hw
      exact segInv_write_ok h b hw
    · rename_i e _
      exact segInv_notify_err h b e

theorem segInv_rotateCreate (h : SegInv c σ.segView) : SegInv c σ.rotateCreate.segView :=
  segInv_create h

theorem segInv_rotateSwap (h : SegInv c σ.segView) (i : ℕ) : SegInv c (σ.rotateSwap i).segView := by
  unfold Wal.rotateSwap
  split
  · exact h
  · rename_i w hw
    exact segInv_swap h (List.mem_of_getElem? hw)

theorem segInv_step (h : SegInv c σ.segView) (e : Event Op) : SegInv c (σ.step c e).segView := by
  cases e with
  | writeOp op => rw [Wal.step, segView_writeOp]; exact h
  | tick => rw [Wal.step, segView_tick]; exact h
  | send => rw [Wal.step, segView_send]; exact h
  | recv => rw [Wal.step, segView_recv]; exact h
  | flush => exact segInv_flush h
  | rotateCreate => exact segInv_rotateCreate h
  | rotateSwap i => exact segInv_rotateSwap h i

end SegmentFiles

/-! ### The buffers -/

section Buffers

variable {Op : Type} {σ : Wal Op}

/-- The ops `write_op` put into the buffer with this id, in write order. -/
def opsTo (written : List (SequencedWalOp Op × ℕ)) (id : ℕ) : List (SequencedWalOp Op) :=
  (written.filter (·.2 = id)).map (·.1)

/-- The buffers swapped out of `Wal::buffer`: being sent, queued, received, or
already notified. -/
def Wal.inFlight (σ : Wal Op) : List (WalBuffer Op) :=
  σ.sending.toList ++ σ.queued.toList ++ σ.received.toList ++ σ.notified.map (·.1)

/-- The invariant of the buffers: each holds exactly the ops written to it, in
order, and the current buffer is the newest. -/
structure BufInv (σ : Wal Op) : Prop where
  current : σ.buffer.ops = opsTo σ.written σ.buffer.id
  in_flight : ∀ b ∈ σ.inFlight, b.ops = opsTo σ.written b.id ∧ b.id < σ.buffer.id
  written_le : ∀ p ∈ σ.written, p.2 ≤ σ.buffer.id

theorem opsTo_append_singleton (written : List (SequencedWalOp Op × ℕ)) (op : SequencedWalOp Op)
    (i id : ℕ) : opsTo (written ++ [(op, i)]) id = opsTo written id ++ if i = id then [op] else [] := by
  by_cases h : i = id <;> simp [opsTo, h]

theorem opsTo_eq_nil {written : List (SequencedWalOp Op × ℕ)} {id : ℕ}
    (h : ∀ p ∈ written, p.2 ≠ id) : opsTo written id = [] := by
  simpa [opsTo, List.filter_eq_nil_iff] using h

/-- A step that keeps the current buffer and the writes, and only moves buffers
along their way, keeps the invariant. -/
theorem BufInv.of_subset {σ σ' : Wal Op} (h : BufInv σ) (hb : σ'.buffer = σ.buffer)
    (hw : σ'.written = σ.written) (hf : ∀ b ∈ σ'.inFlight, b ∈ σ.inFlight) : BufInv σ' where
  current := by rw [hb, hw]; exact h.current
  in_flight b hm := by rw [hb, hw]; exact h.in_flight b (hf b hm)
  written_le p hm := by rw [hb]; exact h.written_le p (hw ▸ hm)

theorem bufInv_new : BufInv (Wal.new : Wal Op) :=
  ⟨rfl, by simp [Wal.inFlight, Wal.new], by simp [Wal.new]⟩

theorem bufInv_writeOp (h : BufInv σ) (op : SequencedWalOp Op) : BufInv (σ.writeOp op) where
  current := by simp [Wal.writeOp, opsTo_append_singleton, h.current]
  in_flight b hm := by
    obtain ⟨hops, hlt⟩ := h.in_flight b hm
    exact ⟨by simp [Wal.writeOp, opsTo_append_singleton, hops, Nat.ne_of_gt hlt], hlt⟩
  written_le p hm := by
    simp only [Wal.writeOp, List.mem_append, List.mem_singleton] at hm
    rcases hm with hm | rfl
    · exact h.written_le p hm
    · exact le_rfl

theorem bufInv_tick (h : BufInv σ) : BufInv σ.tick := by
  unfold Wal.tick
  split
  · exact h
  · rename_i hs
    split
    · exact h
    · refine ⟨?_, ?_, ?_⟩
      · exact (opsTo_eq_nil fun p hp => by have := h.written_le p hp; simp; omega).symm
      · intro b hm
        simp only [Wal.inFlight, Option.toList_some, List.mem_append, List.mem_singleton] at hm
        rcases hm with ((rfl | hm) | hm) | hm
        · exact ⟨h.current, Nat.lt_succ_self _⟩
        · obtain ⟨hops, hlt⟩ := h.in_flight b (by simp [Wal.inFlight, hm])
          exact ⟨hops, Nat.lt_succ_of_lt hlt⟩
        · obtain ⟨hops, hlt⟩ := h.in_flight b (by simp [Wal.inFlight, hm])
          exact ⟨hops, Nat.lt_succ_of_lt hlt⟩
        · obtain ⟨hops, hlt⟩ := h.in_flight b (by simp [Wal.inFlight, hm])
          exact ⟨hops, Nat.lt_succ_of_lt hlt⟩
      · intro p hp
        exact Nat.le_succ_of_le (h.written_le p hp)

theorem bufInv_send (h : BufInv σ) : BufInv σ.send := by
  unfold Wal.send
  split
  · rename_i b hs hq
    refine h.of_subset rfl rfl fun b' hm => ?_
    simp only [Wal.inFlight, hs, hq, Option.toList_some, Option.toList_none, List.mem_append,
      List.mem_singleton, List.not_mem_nil, or_false, false_or] at hm ⊢
    tauto
  · exact h

theorem bufInv_recv (h : BufInv σ) : BufInv σ.recv := by
  unfold Wal.recv
  split
  · rename_i b hq hr
    refine h.of_subset rfl rfl fun b' hm => ?_
    simp only [Wal.inFlight, hq, hr, Option.toList_some, Option.toList_none, List.mem_append,
      List.mem_singleton, List.not_mem_nil, or_false] at hm ⊢
    tauto
  · exact h

/-- The I/O thread's notification moves the received buffer to the notified ones. -/
theorem inFlight_notify {σ σ' : Wal Op} {b : WalBuffer Op} {r : WriteResult}
    (hr : σ.received = some b) (hs : σ'.sending = σ.sending) (hq : σ'.queued = σ.queued)
    (hr' : σ'.received = none) (hn : σ'.notified = σ.notified ++ [(b, r)]) :
    ∀ b' ∈ σ'.inFlight, b' ∈ σ.inFlight := by
  intro b' hm
  simp only [Wal.inFlight, hs, hq, hr, hr', hn, Option.toList_some, Option.toList_none,
    List.map_append, List.map_singleton, List.mem_append, List.mem_singleton, List.not_mem_nil,
    or_false] at hm ⊢
  tauto

theorem bufInv_flush (c : Codec Op) (h : BufInv σ) : BufInv (σ.flush c) := by
  unfold Wal.flush
  split
  · exact h
  · rename_i b hr
    split
    · exact h.of_subset rfl rfl (inFlight_notify hr rfl rfl rfl rfl)
    · exact h.of_subset rfl rfl (inFlight_notify hr rfl rfl rfl rfl)

theorem bufInv_rotateSwap (h : BufInv σ) (i : ℕ) : BufInv (σ.rotateSwap i) := by
  unfold Wal.rotateSwap
  split
  · exact h
  · exact h.of_subset rfl rfl fun _ hm => hm

theorem bufInv_step (c : Codec Op) (h : BufInv σ) (e : Event Op) : BufInv (σ.step c e) := by
  cases e with
  | writeOp op => exact bufInv_writeOp h op
  | tick => exact bufInv_tick h
  | send => exact bufInv_send h
  | recv => exact bufInv_recv h
  | flush => exact bufInv_flush c h
  | rotateCreate => exact h.of_subset rfl rfl fun _ hm => hm
  | rotateSwap i => exact bufInv_rotateSwap h i

end Buffers

/-! ### Every run -/

section Runs

variable {Op : Type} (c : Codec Op)

/-- The invariant of the WAL. -/
structure Wal.Inv (σ : Wal Op) : Prop where
  seg : SegInv c σ.segView
  buf : BufInv σ

variable {c}

theorem inv_new : (Wal.new : Wal Op).Inv c := ⟨segInv_new, bufInv_new⟩

/-- Run lemma: every event keeps the invariant, so every run does. -/
theorem inv_run : ∀ (es : List (Event Op)) (σ : Wal Op), σ.Inv c → (σ.run c es).Inv c
  | [], _, h => h
  | e :: es, σ, h => inv_run es (σ.step c e) ⟨segInv_step h.seg e, bufInv_step c h.buf e⟩

theorem fst_mem_of_mem_ackedIn {s : ℕ} {l : List (WalBuffer Op × WriteResult)}
    {a : WalBuffer Op × WriteSummary} (h : a ∈ ackedIn s l) : a.1 ∈ l.map (·.1) := by
  obtain ⟨n, hn, hs⟩ := List.mem_filterMap.mp h
  refine List.mem_map.mpr ⟨n, hn, ?_⟩
  obtain ⟨b, r⟩ := n
  cases r with
  | ok sm =>
    by_cases he : sm.segmentId = s
    · simp only [he, if_true, Option.some.injEq] at hs
      rw [← hs]
    · simp [he] at hs
  | err e => simp at hs

/-- Proto batches of `Unit` ops, as pairs, for `Encodable`. -/
def protoUnitEquiv : ProtoSequencedWalOp Unit ≃ List (ℤ × ℕ) × Option Unit where
  toFun p := (p.tableWriteSequenceNumbers, p.op)
  invFun q := ⟨q.1, q.2⟩
  left_inv _ := rfl
  right_inv _ := rfl

instance : Encodable (ProtoSequencedWalOp Unit) := Encodable.ofEquiv _ protoUnitEquiv

/-- A lawful codec for `Unit` ops: a batch is written as the base-256 digits of
its `Encodable` code, compression is the identity, and the checksum is 0. -/
def unitCodec : Codec Unit where
  encodeBatch b := (Nat.digits 256 (Encodable.encode b)).map UInt8.ofNat
  decodeBatch bs := Encodable.decode (Nat.ofDigits 256 (bs.map UInt8.toNat))
  compress := id
  decompress := some
  crc _ := 0

theorem unitCodec_lawful : unitCodec.Lawful where
  decode_encode b := by
    have hdigits : ((Nat.digits 256 (Encodable.encode b)).map UInt8.ofNat).map UInt8.toNat =
        Nat.digits 256 (Encodable.encode b) := by
      rw [List.map_map]
      refine (List.map_congr_left fun d hd => ?_).trans (List.map_id _)
      exact UInt8.toNat_ofNat_of_lt (Nat.digits_lt_base (by decide) hd)
    simp only [unitCodec, hdigits, Nat.ofDigits_digits, Encodable.encodek]
  decompress_compress _ := rfl

end Runs

end IoxCore.Wal
