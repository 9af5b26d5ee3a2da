import HintScript.Number
import Mathlib

/-! The number codec: `encode` is a bijection onto the minimal byte strings.

All of it rests on one fact: a string is minimal just when its length is the width of the number
that its sign and magnitude stand for.
-/

set_option autoImplicit false

namespace HintScript

namespace Bytes

theorem toNatLE_ofNatLE (k n : Nat) : toNatLE (ofNatLE k n) = n % 256 ^ k := by
  induction k generalizing n with
  | zero => simp [ofNatLE, toNatLE, Nat.mod_one]
  | succ k ih =>
    have low : (UInt8.ofNat n).toNat = n % 256 := rfl
    rw [ofNatLE, toNatLE, ih, low, Nat.pow_succ', Nat.mod_mul (a := 256)]

theorem toNatLE_lt (bs : Bytes) : toNatLE bs < 256 ^ bs.length := by
  induction bs with
  | nil => simp [toNatLE]
  | cons b bs ih =>
    have := b.toNat_lt
    simp only [toNatLE, List.length_cons, Nat.pow_succ]
    omega

theorem toNatLE_append (xs ys : Bytes) :
    toNatLE (xs ++ ys) = toNatLE xs + 256 ^ xs.length * toNatLE ys := by
  induction xs with
  | nil => simp [toNatLE]
  | cons b bs ih =>
    simp only [List.cons_append, toNatLE, ih, List.length_cons, Nat.pow_succ]
    rw [Nat.mul_add, Nat.mul_comm (256 ^ bs.length) 256, Nat.mul_assoc]
    omega

theorem ofNatLE_append (j k n : Nat) :
    ofNatLE (j + k) n = ofNatLE j n ++ ofNatLE k (n / 256 ^ j) := by
  induction j generalizing n with
  | zero => simp [ofNatLE]
  | succ j ih =>
    rw [show j + 1 + k = j + k + 1 by omega]
    simp only [ofNatLE, ih, List.cons_append, Nat.div_div_eq_div_mul, Nat.pow_succ']

theorem ofNatLE_mod (k n : Nat) : ofNatLE k (n % 256 ^ k) = ofNatLE k n := by
  have h := ofNatLE_toNatLE (ofNatLE k n)
  rwa [toNatLE_ofNatLE, length_ofNatLE] at h

theorem eq_nil_or_append_singleton (data : Bytes) :
    data = [] ∨ ∃ init top, data = init ++ [top] := by
  simpa only [List.concat_eq_append] using List.eq_nil_or_concat data

theorem ofNatLE_zero (k : Nat) : ofNatLE k 0 = List.replicate k 0 := by
  induction k with
  | zero => rfl
  | succ k ih => simp [ofNatLE, ih, List.replicate_succ]

end Bytes

namespace Number

open Bytes

theorem half_succ (k : Nat) : 1 <<< (8 * (k + 1) - 1) = 128 * 256 ^ k := by
  rw [Nat.one_shiftLeft, show 8 * (k + 1) - 1 = 7 + 8 * k by omega, Nat.pow_add, Nat.pow_mul]

theorem width_le_iff (v : Int) (k : Nat) : width v ≤ k + 1 ↔ v.natAbs < 128 * 256 ^ k := by
  unfold width
  by_cases hv : v = 0
  · simp [hv]
  · have hn : v.natAbs ≠ 0 := by omega
    rw [if_neg hv, ← half_succ, Nat.one_shiftLeft, ← Nat.log2_lt hn]
    omega

theorem width_eq_zero {v : Int} (h : width v = 0) : v = 0 := by
  unfold width at h
  split at h
  · assumption
  · omega

theorem value_pack_succ (v : Int) (k : Nat) (h : v.natAbs < 128 * 256 ^ k) :
    value (pack (k + 1) v) = v := by
  have hp : 256 ^ (k + 1) = 2 * (128 * 256 ^ k) := by rw [Nat.pow_succ]; omega
  unfold value
  simp only [length_pack, half_succ]
  simp only [pack, half_succ, toNatLE_ofNatLE]
  by_cases hv : v < 0
  · rw [if_pos hv, Nat.mod_eq_of_lt (by omega), if_pos (by omega)]
    omega
  · rw [if_neg hv, Nat.mod_eq_of_lt (by omega), if_neg (by omega)]
    omega

theorem value_encode (v : Int) : value (encode v) = v := by
  unfold encode
  cases hw : width v with
  | zero =>
    have hv := width_eq_zero hw
    subst hv
    rfl
  | succ k => exact value_pack_succ v k ((width_le_iff v k).mp (by omega))

theorem encode_injective {v w : Int} (h : encode v = encode w) : v = w := by
  rw [← value_encode v, h, value_encode]

/-- The magnitude is the value without its top bit. -/
theorem natAbs_value_concat (bs : Bytes) (b : UInt8) :
    (value (bs ++ [b])).natAbs = toNatLE bs + 256 ^ bs.length * (b.toNat % 128) := by
  have hlt := toNatLE_lt bs
  have hb := b.toNat_lt
  have hn : toNatLE (bs ++ [b]) = toNatLE bs + 256 ^ bs.length * b.toNat := by
    simp [toNatLE_append, toNatLE]
  unfold value
  simp only [hn, List.length_append, List.length_cons, List.length_nil, Nat.zero_add, half_succ]
  rw [Nat.mul_comm 128]
  by_cases hs : 128 ≤ b.toNat
  · have hm : b.toNat % 128 = b.toNat - 128 := by omega
    have hle := Nat.mul_le_mul_left (256 ^ bs.length) hs
    rw [if_pos (by omega), hm, Nat.mul_sub]
    omega
  · have hm : b.toNat % 128 = b.toNat := by omega
    have hle := Nat.mul_le_mul_left (256 ^ bs.length) (show b.toNat + 1 ≤ 128 by omega)
    rw [Nat.mul_add] at hle
    rw [if_neg (by omega), hm]
    omega

theorem natAbs_value_lt (bs : Bytes) (b : UInt8) :
    (value (bs ++ [b])).natAbs < 128 * 256 ^ bs.length := by
  have hlt := toNatLE_lt bs
  have hle := Nat.mul_le_mul_left (256 ^ bs.length) (show b.toNat % 128 + 1 ≤ 128 by omega)
  rw [Nat.mul_add] at hle
  rw [natAbs_value_concat]
  omega

theorem width_value_le (bs : Bytes) (b : UInt8) : width (value (bs ++ [b])) ≤ bs.length + 1 := by
  rw [width_le_iff]
  exact natAbs_value_lt bs b

theorem isMinimal_concat_concat (bs : Bytes) (next top : UInt8) :
    isMinimal (bs ++ [next] ++ [top]) = true ↔ top.toNat % 128 ≠ 0 ∨ 128 ≤ next.toNat := by
  simp [isMinimal]

theorem isMinimal_iff (data : Bytes) :
    isMinimal data = true ↔ width (value data) = data.length := by
  rcases eq_nil_or_append_singleton data with rfl | ⟨init, top, rfl⟩
  · decide
  · have hle := width_value_le init top
    rcases eq_nil_or_append_singleton init with rfl | ⟨bs, next, rfl⟩
    · have hv := natAbs_value_concat [] top
      simp only [toNatLE, List.length_nil, Nat.pow_zero, Nat.zero_add, Nat.one_mul] at hv
      simp only [List.nil_append, List.length_nil, Nat.zero_add] at hle hv ⊢
      have hz : width (value [top]) = 0 ↔ value [top] = 0 :=
        ⟨width_eq_zero, fun h => by simp [h, width]⟩
      simp only [isMinimal, List.reverse_cons, List.reverse_nil, List.nil_append, bne_iff_ne,
        List.length_cons, List.length_nil]
      omega
    · -- two bytes at least: short of the width only if the byte below the top has room for the sign
      have hv := natAbs_value_concat (bs ++ [next]) top
      have hn : toNatLE (bs ++ [next]) = toNatLE bs + 256 ^ bs.length * next.toNat := by
        simp [toNatLE_append, toNatLE]
      have hk := width_le_iff (value (bs ++ [next] ++ [top])) bs.length
      have hlt := toNatLE_lt bs
      rw [hv, hn] at hk
      rw [isMinimal_concat_concat]
      simp only [List.length_append, List.length_cons, List.length_nil, Nat.zero_add,
        Nat.pow_succ] at hk hle ⊢
      by_cases ht : top.toNat % 128 = 0
      · rw [ht] at hk
        by_cases hx : 128 ≤ next.toNat
        · have := Nat.mul_le_mul_left (256 ^ bs.length) hx
          omega
        · have := Nat.mul_le_mul_left (256 ^ bs.length) (show next.toNat + 1 ≤ 128 by omega)
          rw [Nat.mul_add] at this
          omega
      · have := Nat.mul_le_mul_left (256 ^ bs.length * 256) (show 1 ≤ top.toNat % 128 by omega)
        omega

theorem isMinimal_encode (v : Int) : isMinimal (encode v) = true := by
  rw [isMinimal_iff, value_encode, length_encode]

theorem pack_value_of_ne_zero {data : Bytes} (hz : value data ≠ 0) :
    pack data.length (value data) = data := by
  rcases eq_nil_or_append_singleton data with rfl | ⟨bs, b, rfl⟩
  · rfl
  · have hr := ofNatLE_toNatLE (bs ++ [b])
    simp only [List.length_append, List.length_cons, List.length_nil, Nat.zero_add] at hr ⊢
    unfold pack
    rw [half_succ]
    unfold value at hz ⊢
    simp only [List.length_append, List.length_cons, List.length_nil, Nat.zero_add,
      half_succ] at hz ⊢
    split at hz
    · rename_i hs
      rw [if_pos hs]
      rw [if_pos (by omega), Int.natAbs_neg, Int.natAbs_natCast, Nat.sub_add_cancel hs]
      exact hr
    · rename_i hs
      rw [if_neg hs]
      rw [if_neg (by omega), Int.natAbs_natCast, Nat.add_zero]
      exact hr

theorem pack_value {data : Bytes} (h : width (value data) = data.length) :
    pack data.length (value data) = data := by
  by_cases hz : value data = 0
  · rw [hz, width] at h
    have hd : data = [] := List.length_eq_zero_iff.mp (by simpa using h.symm)
    rw [hd]
    rfl
  · exact pack_value_of_ne_zero hz

theorem encode_value {data : Bytes} (h : isMinimal data = true) : encode (value data) = data := by
  have hw := (isMinimal_iff data).mp h
  unfold encode
  rw [hw]
  exact pack_value hw

/-- The numbers that can be read are the encodings within the limit. -/
theorem decode_eq_ok_iff {data : Bytes} {limit v : Int} :
    decode data limit = .ok v ↔ (data.length : Int) ≤ limit ∧ data = encode v := by
  unfold decode
  constructor
  · intro h
    split at h
    · cases h
    · rename_i hl
      split at h
      · rename_i hm
        cases h
        exact ⟨by omega, (encode_value hm).symm⟩
      · cases h
  · rintro ⟨hl, rfl⟩
    rw [if_neg (by omega), if_pos (isMinimal_encode v), value_encode]

theorem decode_encode {v limit : Int} (h : (width v : Int) ≤ limit) :
    decode (encode v) limit = .ok v :=
  decode_eq_ok_iff.mpr ⟨by simpa using h, rfl⟩

theorem decode_encode_eq (v limit : Int) :
    decode (encode v) limit =
      if ((encode v).length : Int) ≤ limit then .ok v
      else .error (.tooLong (encode v).length limit) := by
  by_cases h : ((encode v).length : Int) ≤ limit
  · rw [if_pos h]
    exact decode_eq_ok_iff.mpr ⟨h, rfl⟩
  · rw [if_neg h, decode, if_pos (by omega)]

theorem width_le_four {v : Int} (h : v.natAbs < 2 ^ 31) : width v ≤ 4 :=
  (width_le_iff v 3).mpr h

theorem natAbs_lt_of_width_le_four {v : Int} (h : width v ≤ 4) : v.natAbs < 2 ^ 31 :=
  (width_le_iff v 3).mp h

theorem decode_encode_small {v : Int} (h : v.natAbs < 2 ^ 31) :
    decode (encode v) sizeLimit = .ok v := by
  have hw := width_le_four h
  apply decode_encode
  unfold sizeLimit
  omega

theorem natAbs_lt_of_decode {data : Bytes} {v : Int} (h : decode data sizeLimit = .ok v) :
    v.natAbs < 2 ^ 31 := by
  obtain ⟨hlen, rfl⟩ := decode_eq_ok_iff.mp h
  rw [length_encode, sizeLimit] at hlen
  exact natAbs_lt_of_width_le_four (by omega)

@[simp] theorem encode_flag (b : Bool) : encode (flag b) = ofBool b := by
  cases b <;> decide

@[simp] theorem isTrue_ofBool (b : Bool) : isTrue (ofBool b) = b := by
  cases b <;> decide

theorem width_natAbs (v : Int) : width (v.natAbs : Int) = width v := by
  unfold width
  simp only [Int.natAbs_natCast]
  by_cases hv : v = 0
  · simp [hv]
  · rw [if_neg hv, if_neg (by omega)]

theorem encode_natCast (n : Nat) : encode (n : Int) = ofNatLE (width (n : Int)) n := by
  unfold encode pack
  rw [if_neg (by omega), Int.natAbs_natCast, Nat.add_zero]

theorem lt_pow_width (v : Int) : v.natAbs < 256 ^ width v := by
  cases hw : width v with
  | zero =>
    rw [width_eq_zero hw]
    decide
  | succ k =>
    have hlt := (width_le_iff v k).mp (by omega)
    rw [Nat.pow_succ]
    omega

theorem encode_byte {n : Nat} (hpos : 0 < n) (hlt : n < 128) : encode n = [UInt8.ofNat n] := by
  have hw : width (n : Int) = 1 := by
    have hle := (width_le_iff (n : Int) 0).mpr (by simpa using hlt)
    have hne : width (n : Int) ≠ 0 := fun h => by
      have := width_eq_zero h
      omega
    omega
  unfold encode pack
  rw [hw, if_neg (by omega)]
  simp [ofNatLE]

theorem exists_encode_iff {data : Bytes} : (∃ v, data = encode v) ↔ isMinimal data = true := by
  constructor
  · rintro ⟨v, rfl⟩
    exact isMinimal_encode v
  · intro h
    exact ⟨value data, (encode_value h).symm⟩

theorem invOn_encode : Set.InvOn value encode Set.univ {data | isMinimal data = true} :=
  ⟨fun v _ => value_encode v, fun _ h => encode_value h⟩

theorem length_encode_le_iff {k : Nat} (hk : 1 ≤ k) (v : Int) :
    (encode v).length ≤ k ↔ v.natAbs < 2 ^ (8 * k - 1) := by
  obtain ⟨j, rfl⟩ := Nat.exists_eq_add_of_le' hk
  rw [length_encode, width_le_iff, ← half_succ, Nat.one_shiftLeft]

/-- The codec on numbers and strings of any size. Writing is a bijection onto the minimal strings.
Reading gives back what was written, unless the limit is short of its length, and accepts a string
just when it has been written and is within the limit. The length is the least that holds the
magnitude and a sign bit. -/
theorem codec_bijective :
    Set.BijOn encode Set.univ {data | isMinimal data = true} ∧
    (∀ v limit : Int, decode (encode v) limit =
      if ((encode v).length : Int) ≤ limit then .ok v
      else .error (.tooLong (encode v).length limit)) ∧
    (∀ data : Bytes, (∃ w, data = encode w) ↔ isMinimal data = true) ∧
    (∀ (data : Bytes) (limit : Int), (∃ v, decode data limit = .ok v) ↔
      (data.length : Int) ≤ limit ∧ ∃ w, data = encode w) ∧
    (∀ (data : Bytes) (limit v : Int), decode data limit = .ok v → encode v = data) ∧
    (∀ (v : Int) (k : Nat), 1 ≤ k → ((encode v).length ≤ k ↔ v.natAbs < 2 ^ (8 * k - 1))) := by
  refine ⟨?_, decode_encode_eq, fun data => exists_encode_iff, ?_, ?_, ?_⟩
  · exact invOn_encode.bijOn (fun v _ => isMinimal_encode v) (fun _ _ => Set.mem_univ _)
  · intro data limit
    simp only [decode_eq_ok_iff, exists_and_left]
  · intro data limit v h
    exact (decode_eq_ok_iff.mp h).2.symm
  · intro v k hk
    exact length_encode_le_iff hk v

theorem codec_bijective_sixBytes :
    let v : Int := -549755813888
    let data : Bytes := [0, 0, 0, 0, 0x80, 0x80]
    encode v = data ∧ isMinimal data = true ∧ decode data 6 = .ok v ∧
      decode data 5 = .error (.tooLong 6 5) ∧ ¬ (encode v).length ≤ 5 := by
  intro v data
  obtain ⟨-, hback, hminimal, -, hwritten, hlength⟩ := codec_bijective
  have hread : decode data 6 = .ok v := by simp [v, data, decode, isMinimal, value, toNatLE]
  have hdata : encode v = data := hwritten data 6 v hread
  have hshort := hback v 5
  rw [hdata] at hshort
  have hmagnitude : ¬ v.natAbs < 2 ^ (8 * 5 - 1) := by decide
  refine ⟨hdata, (hminimal data).mp ⟨v, hdata.symm⟩, hread, hshort, ?_⟩
  rwa [hlength v 5 (by decide)]

end Number

end HintScript
