import JvmPatch.BigEndian

/-! Numbers written as bytes are read back, up to what the bytes have room for. -/

set_option autoImplicit false

namespace JvmPatch

@[simp] theorem length_toBigEndian (count n : Nat) : (toBigEndian count n).length = count := by
  induction count generalizing n with
  | zero => rfl
  | succ count ih => simp [toBigEndian, ih]

@[simp] theorem length_bytes16 (n : UInt16) : (bytes16 n).length = 2 := length_toBigEndian 2 _

@[simp] theorem length_bytes32 (n : UInt32) : (bytes32 n).length = 4 := length_toBigEndian 4 _

@[simp] theorem length_bytes64 (n : UInt64) : (bytes64 n).length = 8 := length_toBigEndian 8 _

theorem bigEndian_concat (s : List UInt8) (b : UInt8) :
    bigEndian (s ++ [b]) = bigEndian s * 256 + b.toNat := by
  simp [bigEndian]

theorem bigEndian_toBigEndian (count n : Nat) :
    bigEndian (toBigEndian count n) = n % Nat.pow 256 count := by
  induction count generalizing n with
  | zero => exact (Nat.mod_one n).symm
  | succ count ih =>
    have split : Nat.pow 256 (count + 1) = 256 * Nat.pow 256 count := Nat.mul_comm _ _
    rw [toBigEndian, bigEndian_concat, ih, split, Nat.mod_mul, UInt8.toNat_ofNat', Nat.mul_comm,
      Nat.add_comm]

theorem bigEndian_toBigEndian_of_lt {count n : Nat} (fits : n < Nat.pow 256 count) :
    bigEndian (toBigEndian count n) = n := by
  rw [bigEndian_toBigEndian, Nat.mod_eq_of_lt fits]

@[simp] theorem ofNat_bigEndian_singleton (b : UInt8) : UInt8.ofNat (bigEndian [b]) = b := by
  simp [bigEndian]

@[simp] theorem ofNat_bigEndian_bytes16 (n : UInt16) :
    UInt16.ofNat (bigEndian (bytes16 n)) = n := by
  rw [bytes16, bigEndian_toBigEndian_of_lt n.toNat_lt, UInt16.ofNat_toNat]

@[simp] theorem ofNat_bigEndian_bytes32 (n : UInt32) :
    UInt32.ofNat (bigEndian (bytes32 n)) = n := by
  rw [bytes32, bigEndian_toBigEndian_of_lt n.toNat_lt, UInt32.ofNat_toNat]

@[simp] theorem ofNat_bigEndian_bytes64 (n : UInt64) :
    UInt64.ofNat (bigEndian (bytes64 n)) = n := by
  rw [bytes64, bigEndian_toBigEndian_of_lt n.toNat_lt, UInt64.ofNat_toNat]

end JvmPatch
