import Mathlib.Algebra.Order.Group.Nat

/-!
# Varints

The base-128 varint of `integer_encoding` (`VarInt::encode_var` and `decode_var` for the
unsigned types): seven bits a byte, lowest first, the high bit set on every byte but the
last. `decodeVar` reads at most ten bytes, the most a 64-bit value needs, and answers the
value modulo `2^64` with the number of bytes it read; it fails when the input ends inside a
varint or the tenth byte still has its high bit set.

`decodeVar_encodeVar` is the round trip: a 64-bit value reads back from its encoding, whatever
follows it.
-/

namespace Varint

/-- `encode_var`: `MSB | n as u8` while `n ≥ 0x80`, then `n as u8`. -/
def encodeVar (n : ℕ) : List UInt8 :=
  if n < 0x80 then [UInt8.ofNat n] else (0x80 ||| UInt8.ofNat n) :: encodeVar (n / 128)
termination_by n
decreasing_by omega

/-- `decode_var` with at most `limit` bytes left to read: the value and the bytes read. -/
def decodeVarAux : ℕ → List UInt8 → Option (ℕ × ℕ)
  | 0, _ => none
  | _ + 1, [] => none
  | limit + 1, b :: rest =>
    if b &&& 0x80 = 0 then some ((b &&& 0x7F).toNat, 1)
    else (decodeVarAux limit rest).map fun p => ((b &&& 0x7F).toNat + 128 * p.1, p.2 + 1)

/-- `decode_var` for `u64`: at most ten bytes, the value modulo `2^64`. -/
def decodeVar (bs : List UInt8) : Option (ℕ × ℕ) :=
  (decodeVarAux 10 bs).map fun p => (p.1 % 2 ^ 64, p.2)

theorem or_128 : ∀ m < 256, (128 ||| m) = m % 128 + 128 := by
  have h : ∀ i : Fin 256, (128 ||| i.val) = i.val % 128 + 128 := by decide +kernel
  exact fun m hm => h ⟨m, hm⟩

theorem and_128 : ∀ m < 256, m &&& 128 = m / 128 * 128 := by
  have h : ∀ i : Fin 256, i.val &&& 128 = i.val / 128 * 128 := by decide +kernel
  exact fun m hm => h ⟨m, hm⟩

theorem msb_or_ofNat (n : ℕ) : (0x80 ||| UInt8.ofNat n).toNat = n % 128 + 128 := by
  have hlt : (UInt8.ofNat n).toNat < 256 := UInt8.toNat_lt _
  rw [UInt8.toNat_or, show (0x80 : UInt8).toNat = 128 from rfl, or_128 _ hlt, UInt8.toNat_ofNat',
    Nat.mod_mod_of_dvd n (by decide : 128 ∣ 2 ^ 8)]

/-- The high bit of a byte is clear exactly below `128`. -/
theorem and_msb_eq_zero (x : UInt8) : x &&& 0x80 = 0 ↔ x.toNat < 128 := by
  rw [← UInt8.toNat_inj, UInt8.toNat_and, show (0x80 : UInt8).toNat = 128 from rfl,
    and_128 _ (UInt8.toNat_lt x), UInt8.toNat_zero]
  omega

/-- The low seven bits of a byte. -/
theorem toNat_and_low (x : UInt8) : (x &&& 0x7F).toNat = x.toNat % 128 := by
  rw [UInt8.toNat_and, show (0x7F : UInt8).toNat = 2 ^ 7 - 1 from rfl,
    Nat.and_two_pow_sub_one_eq_mod]

theorem length_encodeVar_le : ∀ (k n : ℕ), n < 2 ^ (7 * (k + 1)) → (encodeVar n).length ≤ k + 1
  | k, n, h => by
    rw [encodeVar]
    split
    · simp
    · cases k with
      | zero => omega
      | succ k =>
        have hdiv : n / 128 < 2 ^ (7 * (k + 1)) := by
          rw [Nat.div_lt_iff_lt_mul (by omega)]
          calc n < 2 ^ (7 * (k + 1 + 1)) := h
            _ = 2 ^ (7 * (k + 1)) * 128 := by rw [Nat.mul_add 7 (k + 1) 1, Nat.pow_add]
        have := length_encodeVar_le k (n / 128) hdiv
        simp only [List.length_cons]
        omega

theorem encodeVar_ne_nil (n : ℕ) : encodeVar n ≠ [] := by
  rw [encodeVar]
  split <;> simp

/-- A varint of at most `k + 1` bytes holds a value below `2 ^ (7 * (k + 1))`. -/
theorem lt_of_length_encodeVar_le : ∀ (k n : ℕ), (encodeVar n).length ≤ k + 1 → n < 2 ^ (7 * (k + 1))
  | k, n, h => by
    rw [encodeVar] at h
    split at h
    · rename_i hsmall
      calc n < 2 ^ 7 := hsmall
        _ ≤ 2 ^ (7 * (k + 1)) := Nat.pow_le_pow_right (by omega) (by omega)
    · have hrest : (encodeVar (n / 128)).length ≠ 0 := by simpa using encodeVar_ne_nil (n / 128)
      simp only [List.length_cons] at h
      cases k with
      | zero => omega
      | succ k =>
        have ih := lt_of_length_encodeVar_le k (n / 128) (by omega)
        rw [Nat.div_lt_iff_lt_mul (by omega)] at ih
        calc n < 2 ^ (7 * (k + 1)) * 128 := ih
          _ = 2 ^ (7 * (k + 1 + 1)) := by rw [Nat.mul_add 7 (k + 1) 1, Nat.pow_add]

/-- Reading back an encoding with room for all its bytes gives the value and its length. -/
theorem decodeVarAux_encodeVar (rest : List UInt8) :
    ∀ (n limit : ℕ), (encodeVar n).length ≤ limit →
      decodeVarAux limit (encodeVar n ++ rest) = some (n, (encodeVar n).length)
  | n, limit, hlen => by
    by_cases hsmall : n < 0x80
    · rw [encodeVar, if_pos hsmall] at hlen ⊢
      obtain ⟨limit, rfl⟩ : ∃ l, limit = l + 1 := ⟨limit - 1, by simp at hlen; omega⟩
      have hn : (UInt8.ofNat n).toNat = n := UInt8.toNat_ofNat_of_lt (lt_trans hsmall (by decide))
      have hlow : (UInt8.ofNat n &&& 0x7F).toNat = n := by
        rw [toNat_and_low, hn, Nat.mod_eq_of_lt hsmall]
      have hclear : UInt8.ofNat n &&& 0x80 = 0 := (and_msb_eq_zero _).2 (by omega)
      simp [decodeVarAux, hclear, hlow]
    · rw [encodeVar, if_neg hsmall] at hlen ⊢
      obtain ⟨limit, rfl⟩ : ∃ l, limit = l + 1 := ⟨limit - 1, by simp at hlen; omega⟩
      have hn := msb_or_ofNat n
      have hlow : ((0x80 ||| UInt8.ofNat n) &&& 0x7F).toNat = n % 128 := by
        rw [toNat_and_low, hn]
        omega
      have hhigh : ¬ (0x80 ||| UInt8.ofNat n) &&& 0x80 = 0 := by
        rw [and_msb_eq_zero, hn]
        omega
      have ih := decodeVarAux_encodeVar rest (n / 128) limit (by simpa using hlen)
      simp only [List.cons_append, decodeVarAux, if_neg hhigh, ih, Option.map_some, hlow,
        List.length_cons]
      congr 2
      omega

/-- A 64-bit value reads back from its varint, whatever follows it. -/
theorem decodeVar_encodeVar {n : ℕ} (hn : n < 2 ^ 64) (rest : List UInt8) :
    decodeVar (encodeVar n ++ rest) = some (n, (encodeVar n).length) := by
  have hlen : (encodeVar n).length ≤ 10 :=
    length_encodeVar_le 9 n (lt_of_lt_of_le hn (Nat.pow_le_pow_right (by omega) (by omega)))
  rw [decodeVar, decodeVarAux_encodeVar rest n 10 hlen, Option.map_some, Nat.mod_eq_of_lt hn]

/-- A varint that reads takes at least one byte. -/
theorem pos_of_decodeVarAux : ∀ {limit : ℕ} {bs : List UInt8} {v r : ℕ},
    decodeVarAux limit bs = some (v, r) → 0 < r
  | 0, _, _, _, h => by simp [decodeVarAux] at h
  | _ + 1, [], _, _, h => by simp [decodeVarAux] at h
  | _ + 1, b :: rest, _, _, h => by
    simp only [decodeVarAux] at h
    split at h
    · simp only [Option.some.injEq, Prod.mk.injEq] at h
      omega
    · obtain ⟨p, -, hp⟩ := Option.map_eq_some_iff.mp h
      simp only [Prod.mk.injEq] at hp
      omega

theorem pos_of_decodeVar {bs : List UInt8} {v r : ℕ} (h : decodeVar bs = some (v, r)) : 0 < r := by
  obtain ⟨p, hp, hpr⟩ := Option.map_eq_some_iff.mp h
  simp only [Prod.mk.injEq] at hpr
  exact hpr.2 ▸ pos_of_decodeVarAux hp

end Varint
