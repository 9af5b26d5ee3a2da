import HintScript.Proofs.Number
import HintScript.Work

set_option autoImplicit false

namespace HintScript

namespace Bytes

/-- Value of a byte string whose first byte is the most significant. -/
def toNatBE : Bytes → Nat
  | [] => 0
  | b :: bs => b.toNat * 2 ^ (8 * bs.length) + toNatBE bs

theorem toNatBE_cons_lt {b : UInt8} {bs : Bytes} (h : toNatBE bs < 2 ^ (8 * bs.length)) :
    toNatBE (b :: bs) < (b.toNat + 1) * 2 ^ (8 * bs.length) := by
  -- one more in the first byte is more than all bytes behind it
  rw [toNatBE, Nat.add_mul, Nat.one_mul]
  exact Nat.add_lt_add_left h _

theorem toNatBE_lt (bs : Bytes) : toNatBE bs < 2 ^ (8 * bs.length) := by
  induction bs with
  | nil => decide
  | cons b bs ih =>
    have hb : b.toNat + 1 ≤ 2 ^ 8 := b.toNat_lt
    have hlength : 8 * (b :: bs).length = 8 + 8 * bs.length := by
      rw [List.length_cons]
      omega
    rw [hlength, Nat.pow_add]
    exact Nat.lt_of_lt_of_le (toNatBE_cons_lt ih) (Nat.mul_le_mul_right _ hb)

theorem toNatBE_eq_zero_iff (bs : Bytes) : toNatBE bs = 0 ↔ ∀ b ∈ bs, b = 0 := by
  induction bs with
  | nil => simp [toNatBE]
  | cons b bs ih =>
    rw [toNatBE, Nat.add_eq_zero_iff, ih, List.forall_mem_cons]
    simp [← UInt8.toNat_inj]

theorem size_toNatBE_cons {b : UInt8} (hb : b ≠ 0) (bs : Bytes) :
    (toNatBE (b :: bs)).size = b.toNat.log2 + 1 + 8 * bs.length := by
  have hne : b.toNat ≠ 0 := fun h0 => hb (UInt8.toNat_inj.mp h0)
  have hlow := Nat.log2_self_le hne
  have hhigh : b.toNat + 1 ≤ 2 ^ (b.toNat.log2 + 1) := Nat.lt_log2_self
  apply Nat.le_antisymm
  · rw [Nat.size_le, Nat.pow_add]
    exact Nat.lt_of_lt_of_le (toNatBE_cons_lt (toNatBE_lt bs)) (Nat.mul_le_mul_right _ hhigh)
  · rw [Nat.add_right_comm, Nat.succ_le_iff, Nat.lt_size, Nat.pow_add, toNatBE]
    exact Nat.le_add_right_of_le (Nat.mul_le_mul_right _ hlow)

end Bytes

namespace Work

/-- The leading zeros and the bits of the number make up the string. -/
theorem leadingZeroBits_add_size (d : Bytes) :
    leadingZeroBits d + d.toNatBE.size = 8 * d.length := by
  induction d with
  | nil => rfl
  | cons b bs ih =>
    rw [leadingZeroBits, List.length_cons]
    by_cases hb : b = 0
    · have hvalue : Bytes.toNatBE (b :: bs) = Bytes.toNatBE bs := by
        rw [Bytes.toNatBE, hb, UInt8.toNat_zero, Nat.zero_mul, Nat.zero_add]
      rw [if_pos hb, hvalue]
      omega
    · have hne : b.toNat ≠ 0 := fun h0 => hb (UInt8.toNat_inj.mp h0)
      have hlog : b.toNat.log2 < 8 := (Nat.log2_lt hne).mpr b.toNat_lt
      rw [if_neg hb, Bytes.size_toNatBE_cons hb]
      omega

/-- A byte string has at least `k` leading zero bits just when its value does without the highest `k`
bits. It has no more zero bits than bits, and as many only if all bytes are zero. -/
theorem leadingZeroBits_counts (d : Bytes) :
    (∀ k ≤ 8 * d.length, k ≤ leadingZeroBits d ↔ d.toNatBE < 2 ^ (8 * d.length - k)) ∧
      leadingZeroBits d ≤ 8 * d.length ∧
      (leadingZeroBits d = 8 * d.length ↔ ∀ b ∈ d, b = 0) := by
  have hsum := leadingZeroBits_add_size d
  refine ⟨fun k hk => ?_, by omega, ?_⟩
  · rw [← Nat.size_le]
    omega
  · rw [← Bytes.toNatBE_eq_zero_iff, ← Nat.size_eq_zero]
    omega

theorem leadingZeroBits_counts_eleven :
    let d : Bytes := [0, 0x1f, 0xff]
    leadingZeroBits d = 11 ∧ d.toNatBE < 2 ^ 13 ∧ ¬ d.toNatBE < 2 ^ 12 ∧ leadingZeroBits d ≠ 24 := by
  intro d
  obtain ⟨hcount, -, hall⟩ := leadingZeroBits_counts d
  have hbits : leadingZeroBits d = 11 := by decide
  refine ⟨hbits, (hcount 11 (by decide)).mp hbits.ge, ?_, ?_⟩
  · exact mt (hcount 12 (by decide)).mpr (by rw [hbits]; decide)
  · exact mt hall.mp (by decide)

end Work

end HintScript
