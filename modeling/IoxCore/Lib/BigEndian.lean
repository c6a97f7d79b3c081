import Mathlib.Algebra.Order.Group.Nat

/-!
# Big-endian integers

Fixed-width unsigned integers as bytes, most significant first, as byteorder's
`write_u32::<BigEndian>` and `u64::to_be_bytes` write them, and `read`, which
takes a fixed number of bytes off the front of an input (`read_exact`) and fails
when fewer remain.
-/

namespace BigEndian

/-- The `width` low bytes of `value`, most significant first. -/
def toBytes : ℕ → ℕ → List UInt8
  | 0, _ => []
  | w + 1, v => toBytes w (v / 256) ++ [UInt8.ofNat (v % 256)]

/-- The value of bytes read most significant first. -/
def ofBytes (bs : List UInt8) : ℕ := bs.foldl (fun acc b => 256 * acc + b.toNat) 0

/-- Reads a `width`-byte integer off the front of an input. -/
def read (width : ℕ) (bs : List UInt8) : Option (ℕ × List UInt8) :=
  if width ≤ bs.length then some (ofBytes (bs.take width), bs.drop width) else none

@[simp]
theorem length_toBytes : ∀ w v, (toBytes w v).length = w
  | 0, _ => rfl
  | w + 1, v => by simp [toBytes, length_toBytes w]

theorem ofBytes_append_singleton (bs : List UInt8) (b : UInt8) :
    ofBytes (bs ++ [b]) = 256 * ofBytes bs + b.toNat := by
  simp [ofBytes, List.foldl_append]

theorem ofBytes_toBytes : ∀ w v, ofBytes (toBytes w v) = v % 256 ^ w
  | 0, v => by simp [toBytes, ofBytes, Nat.mod_one]
  | w + 1, v => by
    have hlow : (UInt8.ofNat (v % 256)).toNat = v % 256 :=
      UInt8.toNat_ofNat_of_lt (Nat.mod_lt _ (by decide))
    rw [toBytes, ofBytes_append_singleton, ofBytes_toBytes w, hlow, pow_succ', Nat.mod_mul]
    omega

/-- Reading back a written integer gives its low `width` bytes' value and the rest. -/
theorem read_toBytes_append (w v : ℕ) (rest : List UInt8) :
    read w (toBytes w v ++ rest) = some (v % 256 ^ w, rest) := by
  have hw : (toBytes w v).length = w := length_toBytes w v
  simp [read, ofBytes_toBytes, List.take_left' hw, List.drop_left' hw]

theorem foldl_eq_zero_iff : ∀ (bs : List UInt8) (acc : ℕ),
    bs.foldl (fun acc b => 256 * acc + b.toNat) acc = 0 ↔ acc = 0 ∧ ∀ b ∈ bs, b = 0
  | [], acc => by simp
  | b :: bs, acc => by
    have hb : b = 0 ↔ b.toNat = 0 := by rw [← UInt8.toNat_inj, UInt8.toNat_zero]
    have hsum : 256 * acc + b.toNat = 0 ↔ acc = 0 ∧ b.toNat = 0 := by omega
    rw [List.foldl_cons, foldl_eq_zero_iff bs, hsum, and_assoc]
    simp only [List.mem_cons, forall_eq_or_imp, hb]

/-- Bytes read as `0` exactly when each of them is `0`. -/
theorem ofBytes_eq_zero_iff (bs : List UInt8) : ofBytes bs = 0 ↔ ∀ b ∈ bs, b = 0 := by
  rw [ofBytes, foldl_eq_zero_iff]
  simp

end BigEndian
