import IoxCore.Lib.LinearProbing
import IoxCore.Lib.BigEndian
import Mathlib.Data.Nat.Log
import Mathlib.Tactic.Ring
import Mathlib.Tactic.Positivity

/-!
# Snapshot hash buckets

`data_types::snapshot::hash`: a hash table over the values of a snapshot, with linear probing.
`HashBucketsEncoder::new(capacity)` allocates `next_power_of_two(2 capacity)` slots of four
zero bytes; `push` hashes a value with SipHash-2-4 and stores the value's number plus one, as a
little-endian `u32`, in the first all-zero slot, probing from the slot the hash picks and
wrapping around. `HashBuckets::lookup` walks the slots the same way and yields the number of
every non-empty slot until it reaches an empty one. The walks count in bytes: a position is
masked with `(len - 1) ^ 3`, which keeps it a multiple of four below the length.

## The model

The buckets are the byte vector of the source, and positions are byte offsets. SipHash is not
part of the repository: a `SipHasher24` is its two keys, and the keyed hash is a parameter `sip`,
so that every result holds for any keyed hash. `push_raw`'s `loop` runs as many rounds as there
are slots (`pushLoop`), after which the position is back where it started and the loop would go
on forever. A lookup is collected with a bound on the calls of `next` (`HashProbe.collect`),
`none` when the probe has not ended by then. The protobuf form keeps the bytes and the keys.

## Results

The bytes are read as a `LinearProbing` table (`table`): `pushLoop_eq` and `collect_eq` show
that the two loops are the library's store and walk, through the mask lemma `and_mask`.
`Pushed` is the invariant of an encoder after a sequence of pushes (`Pushed.push`). From it,
`lookup_finds_every_push`: for every capacity below `u32::MAX` and at most that many values,
every push succeeds, the buckets come back unchanged through the protobuf form, and the lookup
of any value yields numbers of pushed values, among them every push of that value.
-/

namespace IoxCore.DataTypes.Snapshot

/-- `Error`. -/
inductive Error
  | bucketsNotPower
  | unrecognizedHash
  deriving DecidableEq, Repr

/-- `HashBuckets`: the mask, the buckets, and the keys of the `SipHasher24`. -/
structure HashBuckets where
  mask : ℕ
  buckets : List UInt8
  hash : UInt64 × UInt64
  deriving DecidableEq, Repr

/-- `HashProbe`. -/
structure HashProbe where
  buckets : HashBuckets
  idx : ℕ
  mask : ℕ

/-- `HashBuckets::lookup_raw`: `(hash as usize) & self.mask`. -/
def HashBuckets.lookupRaw (h : HashBuckets) (hash : UInt64) : HashProbe :=
  { idx := hash.toNat &&& h.mask, buckets := h, mask := h.mask }

/-- `HashBuckets::lookup`, with `sip` the keyed SipHash-2-4. -/
def HashBuckets.lookup (sip : UInt64 → UInt64 → List UInt8 → UInt64) (h : HashBuckets)
    (value : List UInt8) : HashProbe :=
  h.lookupRaw (sip h.hash.1 h.hash.2 value)

/-- `get(idx..idx + 4)`: the four bytes at `idx`. -/
def slice (buckets : List UInt8) (idx : ℕ) : Option (List UInt8) :=
  if idx + 4 ≤ buckets.length then some ((buckets.drop idx).take 4) else none

/-- `u32::from_le_bytes`. -/
def fromLeBytes (bytes : List UInt8) : ℕ := BigEndian.ofBytes bytes.reverse

/-- `u32::to_le_bytes`. -/
def toLeBytes (entry : ℕ) : List UInt8 := (BigEndian.toBytes 4 entry).reverse

/-- `HashProbe::next`. -/
def HashProbe.next (p : HashProbe) : Option (ℕ × HashProbe) := do
  let slice ← slice p.buckets.buckets p.idx
  let entry := fromLeBytes slice
  let p := { p with idx := (p.idx + 4) &&& p.mask }
  -- `entry.checked_sub(1)?`: an empty slot ends the probe
  if entry = 0 then none else some (entry - 1, p)

/-- The items of a probe, as `collect` gathers them, when it ends within `fuel` calls of
`next`. -/
def HashProbe.collect : ℕ → HashProbe → Option (List ℕ)
  | 0, _ => none
  | fuel + 1, p =>
    match p.next with
    | none => some []
    | some (i, p) => (collect fuel p).map (i :: ·)

/-- `generated::SipHash24`. -/
structure SipHash24 where
  key0 : UInt64
  key1 : UInt64
  deriving DecidableEq, Repr

/-- `generated::HashBuckets`: the bytes, and the `hash_function` oneof, whose one case is
`SipHash24`. -/
structure GeneratedHashBuckets where
  buckets : List UInt8
  hashFunction : Option SipHash24
  deriving DecidableEq, Repr

/-- `usize::count_ones`, on a 64-bit target. -/
def countOnes (n : ℕ) : ℕ := ((List.range 64).filter n.testBit).length

/-- `TryFrom<generated::HashBuckets> for HashBuckets`. -/
def HashBuckets.tryFrom (value : GeneratedHashBuckets) : Except Error HashBuckets :=
  let bucketsLen := value.buckets.length
  if countOnes bucketsLen ≠ 1 then .error .bucketsNotPower
  else
    -- `wrapping_sub` does not wrap: a length with a bit set is not `0`
    let mask := (bucketsLen - 1) ^^^ 3
    match value.hashFunction with
    | some s => .ok { mask, buckets := value.buckets, hash := (s.key0, s.key1) }
    | none => .error .unrecognizedHash

/-- `From<HashBuckets> for generated::HashBuckets`. -/
def HashBuckets.toGenerated (h : HashBuckets) : GeneratedHashBuckets :=
  { buckets := h.buckets, hashFunction := some ⟨h.hash.1, h.hash.2⟩ }

/-- `HashBucketsEncoder`. -/
structure HashBucketsEncoder where
  mask : ℕ
  buckets : List UInt8
  hash : UInt64 × UInt64
  len : ℕ
  capacity : ℕ

/-- `usize::next_power_of_two`: the least power of two at or above `n`. -/
def nextPowerOfTwo (n : ℕ) : ℕ := 2 ^ Nat.clog 2 n

/-- `HashBucketsEncoder::new`; `none` where it asserts. `SipHasher24::new()` has the keys
`(0, 0)`. -/
def HashBucketsEncoder.new (capacity : ℕ) : Option HashBucketsEncoder :=
  if capacity < 2 ^ 32 - 1 then
    let bucketsLen := nextPowerOfTwo (capacity * 2) * 4
    -- `wrapping_sub` does not wrap: the length is at least `4`
    some
      { mask := (bucketsLen - 1) ^^^ 3
        len := 0
        capacity := capacity
        buckets := List.replicate bucketsLen 0
        hash := (0, 0) }
  else none

/-- The bytes with the four at `idx` replaced: `*s = entry.to_le_bytes()`. -/
def writeAt (buckets : List UInt8) (idx : ℕ) (bytes : List UInt8) : List UInt8 :=
  buckets.take idx ++ bytes ++ buckets.drop (idx + 4)

/-- The `loop` of `push_raw` from byte `idx`, for at most `fuel` rounds: the first slot whose
four bytes are all zero gets `entry`, and its number is returned. `none` where
`self.buckets[idx..idx + 4]` panics, and where the rounds run out. -/
def pushLoop (buckets : List UInt8) (mask entry : ℕ) : ℕ → ℕ → Option (List UInt8 × ℕ)
  | 0, _ => none
  | fuel + 1, idx =>
    match slice buckets idx with
    | none => none
    | some s =>
      if s.all (· == 0) then some (writeAt buckets idx (toLeBytes entry), idx / 4)
      else pushLoop buckets mask entry fuel ((idx + 4) &&& mask)

/-- `push_raw`: the encoder after the push, and the slot of the value; `none` where it panics,
and where the loop finds no empty slot among all the slots and goes on forever. -/
def HashBucketsEncoder.pushRaw (e : HashBucketsEncoder) (hash : UInt64) :
    Option (HashBucketsEncoder × ℕ) :=
  -- `assert_ne!(self.len, self.capacity)`
  if e.len = e.capacity then none
  else
    let len := e.len + 1
    (pushLoop e.buckets e.mask len (e.buckets.length / 4) (hash.toNat &&& e.mask)).map
      fun (buckets, slot) => ({ e with len := len, buckets := buckets }, slot)

/-- `push`, with `sip` the keyed SipHash-2-4. -/
def HashBucketsEncoder.push (sip : UInt64 → UInt64 → List UInt8 → UInt64) (e : HashBucketsEncoder)
    (v : List UInt8) : Option HashBucketsEncoder :=
  (e.pushRaw (sip e.hash.1 e.hash.2 v)).map (·.1)

/-- `finish`. -/
def HashBucketsEncoder.finish (e : HashBucketsEncoder) : HashBuckets :=
  { mask := e.mask, hash := e.hash, buckets := e.buckets }

/-- Values pushed one after the other. -/
def HashBucketsEncoder.pushAll (sip : UInt64 → UInt64 → List UInt8 → UInt64) :
    HashBucketsEncoder → List (List UInt8) → Option HashBucketsEncoder
  | e, [] => some e
  | e, v :: vs => (e.push sip v).bind fun e => pushAll sip e vs

/-- The buckets of `capacity` after pushing `vs`. -/
def build (sip : UInt64 → UInt64 → List UInt8 → UInt64) (capacity : ℕ) (vs : List (List UInt8)) :
    Option HashBuckets :=
  (HashBucketsEncoder.new capacity).bind fun e => (e.pushAll sip vs).map HashBucketsEncoder.finish

/-! ## The byte mask -/

/-- The mask `(4 P - 1) ^ 3` of `P = 2 ^ p` slots takes a byte position to the first byte of
its slot, counted modulo `P` slots. -/
theorem and_mask (x p : ℕ) : x &&& ((4 * 2 ^ p - 1) ^^^ 3) = 4 * (x / 4 % 2 ^ p) := by
  have h4 : 4 * 2 ^ p = 2 ^ (p + 2) := by rw [pow_add]; ring
  have hshift : 4 * (x / 4 % 2 ^ p) = (x >>> 2 % 2 ^ p) <<< 2 := by
    rw [Nat.shiftLeft_eq, Nat.shiftRight_eq_div_pow]
    ring
  rw [h4, hshift]
  apply Nat.eq_of_testBit_eq
  intro i
  rw [Nat.testBit_and, Nat.testBit_xor, Nat.testBit_two_pow_sub_one, Nat.testBit_shiftLeft,
    Nat.testBit_mod_two_pow, Nat.testBit_shiftRight, show (3 : ℕ) = 2 ^ 2 - 1 from rfl,
    Nat.testBit_two_pow_sub_one]
  -- the two low bits are cleared; the others are those of `x` below `p + 2`
  by_cases hi : i < 2
  · simp [hi, show i < p + 2 by omega]
  · have h2 : 2 + (i - 2) = i := by omega
    have hp : i < p + 2 ↔ i - 2 < p := by omega
    simp [hi, h2, hp, show 2 ≤ i by omega, Bool.and_comm]

/-- The next position of a walk is the first byte of the next slot. -/
theorem next_and_mask (s p : ℕ) :
    (4 * s + 4) &&& ((4 * 2 ^ p - 1) ^^^ 3) = 4 * ((s + 1) % 2 ^ p) := by
  rw [and_mask, show (4 * s + 4) / 4 = s + 1 by omega]

/-- The slot a hash picks. -/
def homeSlot (P : ℕ) (hash : UInt64) : ℕ := hash.toNat / 4 % P

theorem hash_and_mask (hash : UInt64) (p : ℕ) :
    hash.toNat &&& ((4 * 2 ^ p - 1) ^^^ 3) = 4 * LinearProbing.probe (2 ^ p) (homeSlot (2 ^ p) hash) 0 := by
  have hhome : homeSlot (2 ^ p) hash < 2 ^ p := Nat.mod_lt _ (by positivity)
  rw [and_mask, LinearProbing.probe_zero hhome, homeSlot]

/-! ## The buckets as a table -/

/-- The entry of slot `s`: the `u32` in its four bytes. -/
def entryAt (buckets : List UInt8) (s : ℕ) : ℕ := fromLeBytes ((buckets.drop (4 * s)).take 4)

/-- The buckets as a table of value numbers: a slot holds its entry less one, or nothing when
its entry is `0`. -/
def table (buckets : List UInt8) (s : ℕ) : Option ℕ :=
  if entryAt buckets s = 0 then none else some (entryAt buckets s - 1)

variable {buckets : List UInt8} {e : HashBucketsEncoder} {vs : List (List UInt8)}

theorem table_eq_none_iff {s : ℕ} : table buckets s = none ↔ entryAt buckets s = 0 := by
  unfold table
  split <;> simp_all

theorem all_eq_zero_iff (bs : List UInt8) : bs.all (· == 0) = true ↔ fromLeBytes bs = 0 := by
  simp [fromLeBytes, BigEndian.ofBytes_eq_zero_iff]

theorem fromLeBytes_toLeBytes (entry : ℕ) : fromLeBytes (toLeBytes entry) = entry % 2 ^ 32 := by
  simp [fromLeBytes, toLeBytes, BigEndian.ofBytes_toBytes]

@[simp] theorem length_toLeBytes (entry : ℕ) : (toLeBytes entry).length = 4 := by
  simp [toLeBytes]

theorem slice_slot {s : ℕ} (hs : 4 * s + 4 ≤ buckets.length) :
    slice buckets (4 * s) = some ((buckets.drop (4 * s)).take 4) := by
  simp [slice, hs]

theorem table_replicate_zero (n : ℕ) : table (List.replicate n 0) = fun _ => none := by
  funext s
  rw [table_eq_none_iff, entryAt, fromLeBytes, BigEndian.ofBytes_eq_zero_iff]
  intro b hb
  rw [List.mem_reverse] at hb
  exact List.eq_of_mem_replicate (List.mem_of_mem_drop (List.mem_of_mem_take hb))

theorem length_writeAt {buckets bytes : List UInt8} {idx : ℕ} (hidx : idx + 4 ≤ buckets.length)
    (hbytes : bytes.length = 4) : (writeAt buckets idx bytes).length = buckets.length := by
  simp [writeAt, hbytes]
  omega

theorem getElem?_writeAt {buckets bytes : List UInt8} {idx : ℕ} (hidx : idx + 4 ≤ buckets.length)
    (hbytes : bytes.length = 4) (k : ℕ) :
    (writeAt buckets idx bytes)[k]? = if idx ≤ k ∧ k < idx + 4 then bytes[k - idx]? else buckets[k]? := by
  have htake : (buckets.take idx).length = idx := by simp; omega
  unfold writeAt
  by_cases hk : k < idx
  · rw [List.append_assoc, List.getElem?_append_left (by omega), List.getElem?_take_of_lt hk,
      if_neg (by omega)]
  · rw [List.append_assoc, List.getElem?_append_right (by omega), htake]
    by_cases hk4 : k < idx + 4
    · rw [List.getElem?_append_left (by omega), if_pos ⟨by omega, hk4⟩]
    · rw [List.getElem?_append_right (by omega), List.getElem?_drop, if_neg (by omega)]
      congr 1
      omega

/-- A write of four bytes at a slot changes that slot's bytes and no other's. -/
theorem slotBytes_writeAt {buckets bytes : List UInt8} {s : ℕ} (hs : 4 * s + 4 ≤ buckets.length)
    (hbytes : bytes.length = 4) (s' : ℕ) :
    ((writeAt buckets (4 * s) bytes).drop (4 * s')).take 4 =
      if s' = s then bytes else (buckets.drop (4 * s')).take 4 := by
  apply List.ext_getElem?
  intro j
  rw [List.getElem?_take, List.getElem?_drop, getElem?_writeAt hs hbytes]
  by_cases hss : s' = s
  · subst hss
    rw [if_pos rfl]
    by_cases hj : j < 4
    · rw [if_pos hj, if_pos ⟨by omega, by omega⟩, show 4 * s' + j - 4 * s' = j by omega]
    · rw [if_neg hj, List.getElem?_eq_none (by omega)]
  · rw [if_neg hss, List.getElem?_take, List.getElem?_drop]
    by_cases hj : j < 4
    · rw [if_pos hj, if_pos hj, if_neg (by omega)]
    · rw [if_neg hj, if_neg hj]

/-- Writing an entry into a slot stores its value number there. -/
theorem table_writeAt {s entry : ℕ} (hs : 4 * s + 4 ≤ buckets.length)
    (hpos : 0 < entry) (hlt : entry < 2 ^ 32) :
    table (writeAt buckets (4 * s) (toLeBytes entry)) =
      LinearProbing.store (table buckets) s (entry - 1) := by
  funext s'
  by_cases hss : s' = s
  · have hentry : entryAt (writeAt buckets (4 * s) (toLeBytes entry)) s' = entry := by
      rw [entryAt, slotBytes_writeAt hs (length_toLeBytes entry), if_pos hss,
        fromLeBytes_toLeBytes, Nat.mod_eq_of_lt hlt]
    rw [hss] at hentry ⊢
    rw [LinearProbing.store_self, table, hentry, if_neg (by omega)]
  · have hentry : entryAt (writeAt buckets (4 * s) (toLeBytes entry)) s' = entryAt buckets s' := by
      rw [entryAt, slotBytes_writeAt hs (length_toLeBytes entry), if_neg hss, entryAt]
    rw [LinearProbing.store_of_ne _ _ hss, table, hentry, table]

/-! ## The two walks

On buckets of `2 ^ p` slots, with the mask of that length, the `loop` of `push_raw` and the
calls of `HashProbe::next` walk the slots of `LinearProbing.probe`. -/

section Walks

open LinearProbing

variable {p : ℕ}

/-- One round of `push_raw`'s loop, at slot `s`. -/
theorem pushLoop_succ (hlen : buckets.length = 4 * 2 ^ p) {s : ℕ}
    (hs : s < 2 ^ p) (entry fuel : ℕ) :
    pushLoop buckets ((4 * 2 ^ p - 1) ^^^ 3) entry (fuel + 1) (4 * s) =
      if table buckets s = none then some (writeAt buckets (4 * s) (toLeBytes entry), s)
      else pushLoop buckets ((4 * 2 ^ p - 1) ^^^ 3) entry fuel (4 * ((s + 1) % 2 ^ p)) := by
  rw [pushLoop, slice_slot (by omega)]
  dsimp only
  rw [next_and_mask]
  by_cases hempty : table buckets s = none
  · rw [if_pos ((all_eq_zero_iff _).mpr (table_eq_none_iff.mp hempty)), if_pos hempty,
      Nat.mul_div_cancel_left s (by omega)]
  · rw [if_neg fun h => hempty (table_eq_none_iff.mpr ((all_eq_zero_iff _).mp h)), if_neg hempty]

/-- `push_raw`'s loop stores into the first empty slot of the walk, given rounds enough to
reach it. The induction is on the rounds, with `d` the probes made so far. -/
theorem pushLoop_eq (hlen : buckets.length = 4 * 2 ^ p) {h e : ℕ}
    (hfe : FirstEmpty (2 ^ p) (table buckets) h e) (entry : ℕ) :
    ∀ fuel d, d ≤ e → e < d + fuel →
      pushLoop buckets ((4 * 2 ^ p - 1) ^^^ 3) entry fuel (4 * probe (2 ^ p) h d) =
        some (writeAt buckets (4 * probe (2 ^ p) h e) (toLeBytes entry), probe (2 ^ p) h e)
  | 0, _, hd, hfuel => by omega
  | fuel + 1, d, hd, hfuel => by
    rw [pushLoop_succ hlen (probe_lt (by positivity) h d)]
    by_cases hde : d = e
    · subst hde
      rw [if_pos hfe.1]
    · rw [if_neg (hfe.2 d (by omega)), ← probe_succ]
      exact pushLoop_eq hlen hfe entry fuel (d + 1) (by omega) (by omega)

/-- One call of `next`, at slot `s`: the value number of a full slot, and the next slot. -/
theorem next_slot {hb : HashBuckets} (hlen : hb.buckets.length = 4 * 2 ^ p)
    (hmask : hb.mask = (4 * 2 ^ p - 1) ^^^ 3) {s : ℕ} (hs : s < 2 ^ p) :
    HashProbe.next ⟨hb, 4 * s, hb.mask⟩ =
      (table hb.buckets s).map fun i => (i, ⟨hb, 4 * ((s + 1) % 2 ^ p), hb.mask⟩) := by
  have hslice := slice_slot (show 4 * s + 4 ≤ hb.buckets.length by omega)
  simp only [HashProbe.next, hslice, Option.bind_eq_bind, Option.bind_some]
  rw [hmask, next_and_mask]
  unfold table entryAt
  split <;> simp_all

/-- A lookup's walk yields the values of the slots before the first empty one, given calls
enough to reach it. -/
theorem collect_eq {hb : HashBuckets} (hlen : hb.buckets.length = 4 * 2 ^ p)
    (hmask : hb.mask = (4 * 2 ^ p - 1) ^^^ 3) {h e : ℕ}
    (hfe : FirstEmpty (2 ^ p) (table hb.buckets) h e) :
    ∀ fuel d, d ≤ e → e < d + fuel →
      HashProbe.collect fuel ⟨hb, 4 * probe (2 ^ p) h d, hb.mask⟩ =
        some ((List.range' d (e - d)).filterMap fun d => table hb.buckets (probe (2 ^ p) h d))
  | 0, _, hd, hfuel => by omega
  | fuel + 1, d, hd, hfuel => by
    rw [HashProbe.collect, next_slot hlen hmask (probe_lt (by positivity) h d)]
    by_cases hde : d = e
    · subst hde
      rw [hfe.1]
      simp
    · obtain ⟨i, hi⟩ := Option.ne_none_iff_exists'.mp (hfe.2 d (by omega))
      rw [hi, Option.map_some]
      dsimp only
      rw [← probe_succ, collect_eq hlen hmask hfe fuel (d + 1) (by omega) (by omega),
        Option.map_some, show e - d = (e - (d + 1)) + 1 by omega, List.range'_succ,
        List.filterMap_cons, hi]

end Walks

/-! ## The encoder over a sequence of pushes -/

section Encoder

open LinearProbing

variable {sip : UInt64 → UInt64 → List UInt8 → UInt64}

/-- The home slot of the `i`-th pushed value. -/
def valueHome (sip : UInt64 → UInt64 → List UInt8 → UInt64) (keys : UInt64 × UInt64)
    (vs : List (List UInt8)) (P i : ℕ) : ℕ :=
  homeSlot P (sip keys.1 keys.2 (vs.getD i []))

/-- The encoder after the pushes of `vs`, as a linear-probing table of `2 ^ p` slots that
holds the numbers of the pushed values, each reached from its home slot. -/
structure Pushed (sip : UInt64 → UInt64 → List UInt8 → UInt64) (e : HashBucketsEncoder)
    (vs : List (List UInt8)) (p : ℕ) : Prop where
  length : e.buckets.length = 4 * 2 ^ p
  mask : e.mask = (4 * 2 ^ p - 1) ^^^ 3
  len : e.len = vs.length
  capacity : e.capacity < 2 ^ p
  capacity_lt : e.capacity < 2 ^ 32 - 1
  room : vs.length ≤ e.capacity
  inv : Inv (2 ^ p) (table e.buckets) (valueHome sip e.hash vs (2 ^ p))
  lt : ∀ s i, table e.buckets s = some i → i < vs.length
  stored : ∀ i < vs.length, ∃ s, table e.buckets s = some i
  card : (occupied (2 ^ p) (table e.buckets)).card = vs.length

theorem valueHome_append {keys : UInt64 × UInt64} {i : ℕ}
    (hi : i < vs.length) (v : List UInt8) (P : ℕ) :
    valueHome sip keys (vs ++ [v]) P i = valueHome sip keys vs P i := by
  simp [valueHome, List.getElem?_append_left hi]

theorem valueHome_last (keys : UInt64 × UInt64) (vs : List (List UInt8)) (v : List UInt8) (P : ℕ) :
    valueHome sip keys (vs ++ [v]) P vs.length = homeSlot P (sip keys.1 keys.2 v) := by
  simp [valueHome]

/-- A push with room left stores the value's number in the first empty slot of its walk. -/
theorem Pushed.push {p : ℕ}
    (hP : Pushed sip e vs p) (hroom : vs.length < e.capacity) (v : List UInt8) :
    ∃ e', e.push sip v = some e' ∧ e'.capacity = e.capacity ∧ e'.hash = e.hash ∧
      Pushed sip e' (vs ++ [v]) p := by
  have hcard : (occupied (2 ^ p) (table e.buckets)).card < 2 ^ p := by
    rw [hP.card]
    exact lt_trans hroom hP.capacity
  obtain ⟨d, hd, hfe⟩ := exists_firstEmpty hcard (homeSlot (2 ^ p) (sip e.hash.1 e.hash.2 v))
  set slot := probe (2 ^ p) (homeSlot (2 ^ p) (sip e.hash.1 e.hash.2 v)) d with hslot
  have hslotlt : slot < 2 ^ p := probe_lt (by positivity) _ d
  have hfits : 4 * slot + 4 ≤ e.buckets.length := by rw [hP.length]; omega
  have hloop := pushLoop_eq hP.length hfe (vs.length + 1) (2 ^ p) 0 (by omega) (by omega)
  refine ⟨{ e with len := e.len + 1, buckets := writeAt e.buckets (4 * slot) (toLeBytes (vs.length + 1)) },
    ?_, rfl, rfl, ?_⟩
  · -- the loop starts at the hash's slot and runs for as many rounds as there are slots
    have hrounds : e.buckets.length / 4 = 2 ^ p := by rw [hP.length]; omega
    simp only [HashBucketsEncoder.push, HashBucketsEncoder.pushRaw, hP.len, if_neg hroom.ne,
      hrounds, hP.mask, hash_and_mask, hloop, Option.map_some]
    rfl
  · have htable : table (writeAt e.buckets (4 * slot) (toLeBytes (vs.length + 1))) =
        store (table e.buckets) slot vs.length :=
      table_writeAt hfits (by omega) (by have := hP.capacity_lt; omega)
    have hinv : Inv (2 ^ p) (table e.buckets) (valueHome sip e.hash (vs ++ [v]) (2 ^ p)) :=
      hP.inv.congr fun s i hs => valueHome_append (hP.lt s i hs) v _
    have hfe' : FirstEmpty (2 ^ p) (table e.buckets)
        (valueHome sip e.hash (vs ++ [v]) (2 ^ p) vs.length) d := by
      rwa [valueHome_last]
    refine ⟨?_, hP.mask, ?_, hP.capacity, hP.capacity_lt, ?_, ?_, ?_, ?_, ?_⟩
    · rw [length_writeAt hfits (length_toLeBytes _), hP.length]
    · simp [hP.len]
    · simp only [List.length_append, List.length_singleton]
      omega
    · rw [htable, hslot, ← valueHome_last e.hash vs v]
      exact hinv.store hfe'
    · intro s i hs
      rw [htable] at hs
      by_cases hss : s = slot
      · rw [hss, store_self, Option.some.injEq] at hs
        simp [← hs]
      · rw [store_of_ne _ _ hss] at hs
        have := hP.lt s i hs
        simp
        omega
    · intro i hi
      rw [htable]
      by_cases hiv : i = vs.length
      · exact ⟨slot, by rw [hiv, store_self]⟩
      · obtain ⟨s, hs⟩ := hP.stored i (by simp at hi; omega)
        -- the old slot is full, so it is not the slot just filled
        have hss : s ≠ slot := fun h => by rw [h, hslot, hfe.1] at hs; simp at hs
        exact ⟨s, by rw [store_of_ne _ _ hss, hs]⟩
    · rw [htable, card_occupied_store hslotlt hfe.1, hP.card]
      simp

/-- `test_collision`: the value of hash `43` finds the slot of `297`'s full, and takes the next
one. -/
example : ((HashBucketsEncoder.new 6).bind fun e => (e.pushRaw 14).bind fun (e, a) =>
    (e.pushRaw 297).bind fun (e, b) => (e.pushRaw 43).map fun (_, c) => [a, b, c]) =
    some [3, 10, 11] := by
  decide +kernel

/-- Pushes while there is room: the run lemma of `Pushed.push`, by induction on the values
still to push. -/
theorem Pushed.pushAll : ∀ {e : HashBucketsEncoder} {vs : List (List UInt8)} {p : ℕ}
    (ws : List (List UInt8)), Pushed sip e vs p → vs.length + ws.length ≤ e.capacity →
    ∃ e', e.pushAll sip ws = some e' ∧ e'.hash = e.hash ∧ Pushed sip e' (vs ++ ws) p
  | e, vs, _, [], hP, _ => ⟨e, rfl, rfl, by rwa [List.append_nil]⟩
  | e, vs, _, w :: ws, hP, hroom => by
    simp only [List.length_cons] at hroom
    obtain ⟨e₁, hpush, hcap, hhash, hP₁⟩ := hP.push (by omega) w
    obtain ⟨e', hrest, hhash', hP'⟩ :=
      Pushed.pushAll ws hP₁ (by rw [hcap, List.length_append, List.length_singleton]; omega)
    refine ⟨e', ?_, hhash'.trans hhash, by rwa [List.append_assoc, List.singleton_append] at hP'⟩
    rw [HashBucketsEncoder.pushAll, hpush, Option.bind_some, hrest]

/-- `next_power_of_two(2 capacity)` slots leave room for `capacity` values and one empty
slot. -/
theorem lt_nextPowerOfTwo_two_mul (c : ℕ) : c < nextPowerOfTwo (c * 2) := by
  have hle := Nat.le_pow_clog (by decide : 1 < 2) (c * 2)
  have hpos : 0 < 2 ^ Nat.clog 2 (c * 2) := by positivity
  unfold nextPowerOfTwo
  omega

/-- A new encoder is an empty table of `next_power_of_two(2 capacity)` slots. -/
theorem new_pushed (sip : UInt64 → UInt64 → List UInt8 → UInt64) {capacity : ℕ}
    (hc : capacity < 2 ^ 32 - 1) :
    ∃ e, HashBucketsEncoder.new capacity = some e ∧ e.capacity = capacity ∧
      Pushed sip e [] (Nat.clog 2 (capacity * 2)) := by
  refine ⟨_, by rw [HashBucketsEncoder.new, if_pos hc], rfl, ?_⟩
  have hslots : nextPowerOfTwo (capacity * 2) * 4 = 4 * 2 ^ Nat.clog 2 (capacity * 2) := by
    rw [nextPowerOfTwo, Nat.mul_comm]
  refine ⟨by simp [hslots], by rw [hslots], rfl, lt_nextPowerOfTwo_two_mul capacity, hc,
    Nat.zero_le _, ?_, ?_, ?_, ?_⟩
  all_goals simp only [table_replicate_zero]
  · exact inv_empty _
  · simp
  · simp
  · simp [occupied]

theorem countOnes_two_pow {k : ℕ} (hk : k < 64) : countOnes (2 ^ k) = 1 := by
  have hbits : (2 ^ k).testBit = fun i => i == k := by
    funext i
    rw [Nat.testBit_two_pow, beq_eq_decide]
    exact decide_eq_decide.mpr eq_comm
  rw [countOnes, hbits, ← List.countP_eq_length_filter, ← List.count_eq_countP]
  exact List.count_eq_one_of_mem List.nodup_range (List.mem_range.mpr hk)

/-- Buckets of fewer than `2 ^ 62` slots pass `TryFrom`'s check and keep their mask and keys:
they come back unchanged through the protobuf form. -/
theorem Pushed.tryFrom_toGenerated {p : ℕ} (hP : Pushed sip e vs p) (hp : p < 62) :
    HashBuckets.tryFrom e.finish.toGenerated = .ok e.finish := by
  have hones : countOnes e.buckets.length = 1 := by
    rw [hP.length, show 4 * 2 ^ p = 2 ^ (p + 2) by rw [pow_add]; ring]
    exact countOnes_two_pow (by omega)
  simp only [HashBuckets.tryFrom, HashBuckets.toGenerated, HashBucketsEncoder.finish, hones,
    ne_eq, not_true_eq_false, if_false]
  rw [hP.length, hP.mask]

/-- A lookup's walk ends at the first empty slot, and yields the numbers of pushed values,
among them every push of the value looked up. -/
theorem Pushed.lookup {p : ℕ} (hP : Pushed sip e vs p) (x : List UInt8) :
    ∃ l, (e.finish.lookup sip x).collect (e.finish.buckets.length / 4) = some l ∧
      (∀ i ∈ l, i < vs.length) ∧ ∀ i (hi : i < vs.length), vs[i] = x → i ∈ l := by
  have hcard : (occupied (2 ^ p) (table e.buckets)).card < 2 ^ p := by
    rw [hP.card]
    exact lt_of_le_of_lt hP.room hP.capacity
  set hx := homeSlot (2 ^ p) (sip e.hash.1 e.hash.2 x) with hhx
  obtain ⟨d, hd, hfe⟩ := exists_firstEmpty hcard hx
  have hstart : e.finish.lookup sip x = ⟨e.finish, 4 * probe (2 ^ p) hx 0, e.finish.mask⟩ := by
    simp only [HashBuckets.lookup, HashBuckets.lookupRaw, HashBucketsEncoder.finish, hP.mask,
      hash_and_mask, hhx]
  have hcalls : e.finish.buckets.length / 4 = 2 ^ p := by
    simp only [HashBucketsEncoder.finish, hP.length]
    omega
  have hcollect := @collect_eq _ e.finish hP.length hP.mask _ _ hfe (2 ^ p) 0 (by omega) (by omega)
  refine ⟨run (2 ^ p) (table e.buckets) hx d, ?_, ?_, ?_⟩
  · rw [hstart, hcalls, hcollect, run, List.range_eq_range', Nat.sub_zero]
    rfl
  · intro i hi
    obtain ⟨d', -, hd'⟩ := mem_run_iff.mp hi
    exact hP.lt _ i hd'
  · intro i hi hix
    obtain ⟨s, hs⟩ := hP.stored i hi
    have hhome : valueHome sip e.hash vs (2 ^ p) i = hx := by
      simp [valueHome, List.getElem?_eq_getElem hi, hix, hhx]
    rw [← hhome]
    exact mem_run hP.inv hs (by rwa [hhome])

/-- `test_collision`: the lookup of `297` walks through the slot of `43` too. -/
example : ((HashBucketsEncoder.new 6).bind fun e => (e.pushRaw 14).bind fun (e, _) =>
    (e.pushRaw 297).bind fun (e, _) => (e.pushRaw 43).map fun (e, _) =>
      (e.finish.lookupRaw 297).collect 16) = some (some [1, 2]) := by
  decide +kernel

end Encoder

/-- For every capacity below `u32::MAX` and at most that many values, every push succeeds;
the buckets come back unchanged through the protobuf form; and the lookup of any value ends,
with numbers of pushed values, among them every push of that value. -/
theorem lookup_finds_every_push (sip : UInt64 → UInt64 → List UInt8 → UInt64) (c : ℕ)
    (hc : c < 2 ^ 32 - 1) (vs : List (List UInt8)) (hn : vs.length ≤ c) :
    ∃ h, build sip c vs = some h ∧ HashBuckets.tryFrom h.toGenerated = .ok h ∧
      ∀ x, ∃ l, (h.lookup sip x).collect (h.buckets.length / 4) = some l ∧
        (∀ i ∈ l, i < vs.length) ∧ ∀ i (hi : i < vs.length), vs[i] = x → i ∈ l := by
  obtain ⟨e₀, hnew, hcap, hP₀⟩ := new_pushed sip hc
  obtain ⟨e, hpush, -, hP⟩ := hP₀.pushAll vs (by simpa [hcap] using hn)
  rw [List.nil_append] at hP
  -- `2 c` is below `2 ^ 33`, and so is the number of slots
  have hp : Nat.clog 2 (c * 2) < 62 := by
    have := (Nat.clog_le_iff_le_pow (by decide : 1 < 2)).mpr (show c * 2 ≤ 2 ^ 33 by omega)
    omega
  refine ⟨e.finish, ?_, hP.tryFrom_toGenerated hp, hP.lookup⟩
  rw [build, hnew, Option.bind_some, hpush, Option.map_some]

theorem lookup_finds_every_push_colliding : (2 < 2 ^ 32 - 1 ∧ [[(1 : UInt8)], [1]].length ≤ 2) ∧
    ∃ h, build (fun _ _ _ => 0) 2 [[1], [1]] = some h ∧ HashBuckets.tryFrom h.toGenerated = .ok h ∧
      ∀ x, ∃ l, (h.lookup (fun _ _ _ => 0) x).collect (h.buckets.length / 4) = some l ∧
        (∀ i ∈ l, i < [[(1 : UInt8)], [1]].length) ∧
        ∀ i (hi : i < [[(1 : UInt8)], [1]].length), [[(1 : UInt8)], [1]][i] = x → i ∈ l :=
  ⟨⟨by decide, by decide⟩, lookup_finds_every_push (fun _ _ _ => 0) 2 (by decide) [[1], [1]] (by decide)⟩

end IoxCore.DataTypes.Snapshot
