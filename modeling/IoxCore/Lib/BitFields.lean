import Mathlib.Algebra.Order.Group.Nat
import Mathlib.Algebra.Ring.Nat
import Mathlib.Data.Nat.Bitwise
import Mathlib.Tactic.Ring

/-!
# Bit fields

Values packed into one number `b` bits each, the first in the lowest bits (`fields`), as
bit-packing codecs lay them out with shifts and ORs. `orShifted` is the loop such a codec
writes (`acc |= v << (k * b)` for each value in turn); `orShifted_eq` says it builds the
packing above what `acc` holds, and `fields_cons_mod`/`fields_cons_div` read the values
back one at a time, as a decoder masks and shifts.
-/

namespace BitFields

/-- The values packed `b` bits each, the first lowest. -/
def fields (b : ℕ) : List ℕ → ℕ
  | [] => 0
  | v :: vs => v + 2 ^ b * fields b vs

/-- Every value fits in `b` bits. -/
def Fit (b : ℕ) (vs : List ℕ) : Prop := ∀ v ∈ vs, v < 2 ^ b

/-- `acc |= v << (k * b)` for the values in turn, the `k`-th first. -/
def orShifted (b : ℕ) : ℕ → List ℕ → ℕ → ℕ
  | _, [], acc => acc
  | k, v :: vs, acc => orShifted b (k + 1) vs (acc ||| v <<< (k * b))

variable {b : ℕ}

@[simp] theorem fields_nil : fields b [] = 0 := rfl

theorem fields_cons (v : ℕ) (vs : List ℕ) : fields b (v :: vs) = v + 2 ^ b * fields b vs := rfl

theorem Fit.cons {v : ℕ} {vs : List ℕ} : Fit b (v :: vs) ↔ v < 2 ^ b ∧ Fit b vs := by
  simp [Fit]

theorem fields_lt : ∀ {vs : List ℕ}, Fit b vs → fields b vs < 2 ^ (b * vs.length)
  | [], _ => by simp
  | v :: vs, h => by
    obtain ⟨hv, hvs⟩ := Fit.cons.1 h
    have ih := fields_lt hvs
    calc fields b (v :: vs) = v + 2 ^ b * fields b vs := rfl
      _ < 2 ^ b * (fields b vs + 1) := by rw [Nat.mul_add, Nat.mul_one]; omega
      _ ≤ 2 ^ b * 2 ^ (b * vs.length) := Nat.mul_le_mul_left _ ih
      _ = 2 ^ (b * (v :: vs).length) := by
        rw [← Nat.pow_add, List.length_cons, Nat.mul_add, Nat.mul_one, Nat.add_comm]

/-- A number ORed in above the bits of `x` adds to it. -/
theorem or_two_pow_mul {i a x : ℕ} (hx : x < 2 ^ i) : x ||| 2 ^ i * a = 2 ^ i * a + x := by
  rw [Nat.or_comm, Nat.two_pow_add_eq_or_of_lt hx]

theorem two_pow_mul_or (i a c : ℕ) : 2 ^ i * a ||| 2 ^ i * c = 2 ^ i * (a ||| c) := by
  simp only [Nat.mul_comm (2 ^ i), ← Nat.shiftLeft_eq, Nat.shiftLeft_or_distrib]

/-- The OR loop of a packer builds the packing of its values above the bits `acc` holds. -/
theorem orShifted_eq : ∀ {vs : List ℕ} (k acc : ℕ), Fit b vs →
    orShifted b k vs acc = acc ||| 2 ^ (k * b) * fields b vs
  | [], k, acc, _ => by simp [orShifted]
  | v :: vs, k, acc, h => by
    obtain ⟨hv, hvs⟩ := Fit.cons.1 h
    have hshift : 2 ^ ((k + 1) * b) = 2 ^ (k * b) * 2 ^ b := by
      rw [Nat.add_mul, Nat.one_mul, Nat.pow_add]
    rw [orShifted, orShifted_eq (k + 1) _ hvs, Nat.shiftLeft_eq, Nat.or_assoc, hshift,
      Nat.mul_assoc, Nat.mul_comm v, two_pow_mul_or, or_two_pow_mul hv, fields_cons, Nat.add_comm v]

/-- The packing of `v :: vs` with `H` above it is `v` below the packing of `vs` with `H`. -/
theorem fields_cons_add (v : ℕ) (vs : List ℕ) (H : ℕ) :
    fields b (v :: vs) + 2 ^ (b * (vs.length + 1)) * H =
      v + 2 ^ b * (fields b vs + 2 ^ (b * vs.length) * H) := by
  rw [fields_cons, Nat.mul_add b, Nat.mul_one, Nat.pow_add]
  ring

/-- Masking the low `b` bits reads the first value. -/
theorem fields_cons_mod {v : ℕ} (hv : v < 2 ^ b) (vs : List ℕ) (H : ℕ) :
    (fields b (v :: vs) + 2 ^ (b * (vs.length + 1)) * H) % 2 ^ b = v := by
  rw [fields_cons_add, Nat.add_comm, Nat.mul_add_mod, Nat.mod_eq_of_lt hv]

/-- Shifting out the low `b` bits leaves the packing of the rest. -/
theorem fields_cons_div {v : ℕ} (hv : v < 2 ^ b) (vs : List ℕ) (H : ℕ) :
    (fields b (v :: vs) + 2 ^ (b * (vs.length + 1)) * H) / 2 ^ b =
      fields b vs + 2 ^ (b * vs.length) * H := by
  rw [fields_cons_add, Nat.add_comm, Nat.mul_add_div (Nat.two_pow_pos b), Nat.div_eq_of_lt hv,
    Nat.add_zero]

end BitFields
