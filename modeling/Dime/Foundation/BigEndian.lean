import Mathlib.Data.List.Induction
import Mathlib.Data.Nat.ModEq

/-!
# Big-endian numbers

Natural numbers as byte strings, most significant byte first. A width of `k`
bytes keeps a number modulo `256 ^ k`.
-/

namespace BigEndian

/-- The `k` lowest bytes of `n`. -/
def encode : Nat → Nat → List UInt8
  | 0, _ => []
  | k + 1, n => encode k (n / 256) ++ [UInt8.ofNat n]

/-- The number whose digits to base 256 are the given bytes. -/
def decode (bytes : List UInt8) : Nat := bytes.foldl (fun acc byte => acc * 256 + byte.toNat) 0

@[simp] theorem length_encode (k n : Nat) : (encode k n).length = k := by
  induction k generalizing n with
  | zero => rfl
  | succ k ih => simp [encode, ih]

theorem decode_append_singleton (bytes : List UInt8) (byte : UInt8) :
    decode (bytes ++ [byte]) = decode bytes * 256 + byte.toNat := by
  simp [decode]

theorem decode_lt (bytes : List UInt8) : decode bytes < 256 ^ bytes.length := by
  induction bytes using List.reverseRecOn with
  | nil => simp [decode]
  | append_singleton bytes byte ih =>
      have := byte.toNat_lt
      rw [decode_append_singleton, List.length_append, List.length_singleton, Nat.pow_succ]
      omega

/-- Reading back what was written yields the number, up to the width. -/
theorem decode_encode (k n : Nat) : decode (encode k n) = n % 256 ^ k := by
  induction k generalizing n with
  | zero => exact (Nat.mod_one n).symm
  | succ k ih =>
      have hlow : (UInt8.ofNat n).toNat = n % 256 := UInt8.toNat_ofNat'
      have hpow : 256 ^ (k + 1) = 256 * 256 ^ k := Nat.pow_succ'
      rw [encode, decode_append_singleton, ih, hlow, hpow, Nat.mod_mul, Nat.mul_comm, Nat.add_comm]

theorem decode_encode_of_lt {k n : Nat} (h : n < 256 ^ k) : decode (encode k n) = n := by
  rw [decode_encode, Nat.mod_eq_of_lt h]

/-- Writing what was read yields the bytes. -/
theorem encode_decode (bytes : List UInt8) : encode bytes.length (decode bytes) = bytes := by
  induction bytes using List.reverseRecOn with
  | nil => rfl
  | append_singleton bytes byte ih =>
      have hhigh : (decode bytes * 256 + byte.toNat) / 256 = decode bytes := by
        have := byte.toNat_lt
        omega
      have hlow : UInt8.ofNat (decode bytes * 256 + byte.toNat) = byte := by
        apply UInt8.toNat_inj.mp
        have := byte.toNat_lt
        rw [UInt8.toNat_ofNat']
        omega
      rw [decode_append_singleton, List.length_append, List.length_singleton, encode, hhigh, hlow, ih]

end BigEndian
