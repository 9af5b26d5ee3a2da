import HintScript.Extraction
import HintScript.Proofs.Shift

/-! Indices on the machine: the script that replaces a value by its index computes `BitOrder.trim`.

The low bits are what is left when every power of two that fits has been subtracted, the largest
first; the high bits are moved one by one into an item below the value. No operand has more than 31
bits. Beside the items that it finds, the script at one point holds `BitOrder.room` items and never
more.
-/

set_option autoImplicit false

namespace HintScript

open Number Script

namespace BitOrder

section

variable {H : Bytes → Bytes} {m l : List Bytes}

def powers (j : Nat) : Nat → List Bytes
  | 0 => []
  | k + 1 => encode (2 ^ (j + k) : Nat) :: powers j k

theorem powers_snoc (j k : Nat) :
    powers (j + 1) k ++ [encode (2 ^ j : Nat)] = powers j (k + 1) := by
  induction k with
  | zero => rfl
  | succ k ih =>
    rw [powers, List.cons_append, ih, powers.eq_2 j (k + 1), Nat.add_right_comm]
    rfl

theorem natAbs_pow_lt {j : Nat} (h : j < 31) : ((2 ^ j : Nat) : Int).natAbs < 2 ^ 31 :=
  Nat.pow_lt_pow_right (by decide) h

theorem exec_powers {j : Nat} (k : Nat) (h : j + k ≤ 30) {m : List Bytes} :
    exec (shaEnv H) (times k (ops [.dup, .dup, .add])) ⟨⟨encode (2 ^ j : Nat) :: m, l⟩, []⟩ =
      some ⟨⟨powers j (k + 1) ++ m, l⟩, []⟩ := by
  induction k generalizing j m with
  | zero => rfl
  | succ k ih =>
    have hj := natAbs_pow_lt (show j < 31 by omega)
    have hdouble : ((2 ^ j : Nat) : Int) + (2 ^ j : Nat) = (2 ^ (j + 1) : Nat) := by
      rw [Nat.pow_succ]
      omega
    rw [times_succ, exec_append, exec_dup, exec_dup, exec_add hj hj, hdouble,
      exec_ops_nil, Option.bind_some, ih (by omega), ← powers_snoc j (k + 1)]
    simp

def reduceScript : Script :=
  ops [.swap, .dup2, .greaterEq] ++
    (.op .ifTrue :: (ops [.sub] ++ .op .orElse :: (ops [.drop] ++ [.op .endIf])))

theorem reduceScript_shifts : Shifts reduceScript (-1) 0 2 :=
  ((Shifts.line (s := ops [.swap, .dup2, .greaterEq]) rfl).append
    (.either (.inl rfl) (.line (s := ops [.sub]) rfl) (.line (s := ops [.drop]) rfl))).of_eq
    rfl rfl (by decide)

theorem exec_reduceScript {n p : Nat} (hn : n < 2 * p) (hp : p < 2 ^ 31) (hn' : n < 2 ^ 31) :
    exec (shaEnv H) reduceScript ⟨⟨encode n :: encode p :: m, l⟩, []⟩ =
      some ⟨⟨encode (n % p : Nat) :: m, l⟩, []⟩ := by
  unfold reduceScript
  rw [exec_append, exec_swap, exec_dup2,
    exec_greaterEq (decode_encode_small (by omega)) (by omega), exec_ops_nil, Option.bind_some,
    Shifts.exec_either (.line (s := ops [.sub]) rfl) (.line (s := ops [.drop]) rfl),
    exec_sub (by omega) (by omega), exec_drop, exec_ops_nil, exec_ops_nil]
  by_cases h : p ≤ n
  · have hmod : n % p = n - p := by
      rw [Nat.mod_eq_sub_mod h, Nat.mod_eq_of_lt (by omega)]
    rw [if_pos (decide_eq_true (by omega)), hmod, Int.natCast_sub h]
  · rw [if_neg (by rw [decide_eq_true_iff]; omega), Nat.mod_eq_of_lt (by omega)]

theorem exec_times_reduce {j : Nat} (k : Nat) (h : j + k ≤ 31) {n : Nat} (hn : n < 2 ^ (j + k)) :
    exec (shaEnv H) (times k reduceScript) ⟨⟨encode n :: (powers j k ++ m), l⟩, []⟩ =
      some ⟨⟨encode (n % 2 ^ j : Nat) :: m, l⟩, []⟩ := by
  induction k generalizing n with
  | zero =>
    rw [Nat.mod_eq_of_lt (by simpa using hn)]
    rfl
  | succ k ih =>
    have hp : 2 ^ (j + k) < 2 ^ 31 := Nat.pow_lt_pow_right (by decide) (by omega)
    have hn' : n < 2 * 2 ^ (j + k) := by
      rwa [← Nat.add_assoc, Nat.pow_succ, Nat.mul_comm] at hn
    have hbound : 2 ^ (j + (k + 1)) ≤ 2 ^ 31 := Nat.pow_le_pow_right (by decide) h
    have hdvd : 2 ^ j ∣ 2 ^ (j + k) := Nat.pow_dvd_pow 2 (by omega)
    rw [times_succ, exec_append, powers, List.cons_append,
      exec_reduceScript hn' hp (by omega), Option.bind_some,
      ih (by omega) (Nat.mod_lt _ (by omega)), Nat.mod_mod_of_dvd _ hdvd]

theorem lowScript_eq (w : Width) : lowScript w =
    ops [.toAlt] ++ num (2 ^ w.bits : Nat) ++ times (30 - w.bits) (ops [.dup, .dup, .add]) ++
      ops [.fromAlt] ++ times (31 - w.bits) reduceScript := by
  rw [← Nat.one_shiftLeft]
  rfl

theorem exec_lowScript {w : Width} (hw : w.bits ≠ 31) {n : Nat} (hn : n < 2 ^ 31) :
    exec (shaEnv H) (lowScript w) ⟨⟨encode n :: m, l⟩, []⟩ =
      some ⟨⟨encode (n % 2 ^ w.bits : Nat) :: m, l⟩, []⟩ := by
  have hle := w.le
  have hcount : 30 - w.bits + 1 = 31 - w.bits := by omega
  have hlt := natAbs_pow_lt (show w.bits < 31 by omega)
  rw [lowScript_eq]
  simp only [exec_append, exec_toAlt, exec_ops_nil, Option.bind_some]
  rw [exec_num hlt, Option.bind_some, exec_powers _ (by omega), Option.bind_some,
    exec_fromAlt, exec_ops_nil, Option.bind_some, hcount, exec_times_reduce _ (by omega)]
  rwa [Nat.add_sub_cancel' hle]

def moveBit (shift k : Nat) : Script :=
  ops [.dup] ++ num (2 ^ (shift + k) : Nat) ++ ops [.greaterEq] ++
    (.op .ifTrue :: ((num (2 ^ (shift + k) : Nat) ++ ops [.sub, .swap] ++ num (2 ^ k : Nat) ++
      ops [.add, .swap]) ++ [.op .endIf]))

theorem highBits_succ (shift k : Nat) :
    highBits shift (k + 1) = moveBit shift k ++ highBits shift k := by
  rw [moveBit, ← Nat.one_shiftLeft, ← Nat.one_shiftLeft]
  rfl

theorem moveBit_shifts (shift k : Nat) : Shifts (moveBit shift k) 0 0 2 :=
  ((((Shifts.line (s := ops [.dup]) rfl).append (.line (s := num _) rfl)).append
    (.line (s := ops [.greaterEq]) rfl)).append
    (.only (.inl rfl) (.line (s := num _ ++ ops [.sub, .swap] ++ num _ ++ ops [.add, .swap])
      rfl))).of_eq rfl rfl (by decide)

theorem exec_moveBit {shift k n acc : Nat} (h : shift + k < 31) (hn : n < 2 ^ 31)
    (hacc : acc < 2 ^ 31) :
    exec (shaEnv H) (moveBit shift k) ⟨⟨encode n :: encode acc :: m, l⟩, []⟩ =
      some ⟨⟨if 2 ^ (shift + k) ≤ n
        then encode (n - 2 ^ (shift + k) : Nat) :: encode (acc + 2 ^ k : Nat) :: m
        else encode n :: encode acc :: m, l⟩, []⟩ := by
  have hhigh := natAbs_pow_lt h
  have hlow := natAbs_pow_lt (show k < 31 by omega)
  unfold moveBit
  simp only [exec_append, exec_dup, exec_ops_nil, Option.bind_some]
  rw [exec_num hhigh, Option.bind_some, exec_greaterEq (decode_encode_small (by omega)) hhigh,
    exec_ops_nil, Option.bind_some,
    Shifts.exec_only (.line (s := num _ ++ ops [.sub, .swap] ++ num _ ++ ops [.add, .swap]) rfl)]
  by_cases hle : 2 ^ (shift + k) ≤ n
  · rw [if_pos (decide_eq_true (by omega)), if_pos hle]
    simp only [exec_append]
    rw [exec_num hhigh, Option.bind_some, exec_sub (by omega) hhigh, exec_swap, exec_ops_nil,
      Option.bind_some, exec_num hlow, Option.bind_some, exec_add (by omega) hlow, exec_swap,
      exec_ops_nil, Int.natCast_sub hle, Int.natCast_add]
  · rw [if_neg (by rw [decide_eq_true_iff]; omega), if_neg hle]

/-- The value keeps its low bits; the item below it gains the others. -/
theorem exec_highBits {shift : Nat} (k : Nat) (h : shift + k ≤ 31) {n acc : Nat}
    (hn : n < 2 ^ (shift + k)) (hacc : acc + 2 ^ k ≤ 2 ^ 31) :
    exec (shaEnv H) (highBits shift k) ⟨⟨encode n :: encode acc :: m, l⟩, []⟩ =
      some ⟨⟨encode (n % 2 ^ shift : Nat) :: encode (acc + n / 2 ^ shift : Nat) :: m, l⟩, []⟩ := by
  induction k generalizing n acc with
  | zero =>
    rw [Nat.add_zero] at hn
    rw [Nat.mod_eq_of_lt hn, Nat.div_eq_of_lt hn]
    rfl
  | succ k ih =>
    have hbound : 2 ^ (shift + (k + 1)) ≤ 2 ^ 31 := Nat.pow_le_pow_right (by decide) h
    have hpos : 0 < 2 ^ k := Nat.pow_pos (by decide)
    rw [← Nat.add_assoc, Nat.pow_succ] at hn hbound
    rw [Nat.pow_succ] at hacc
    rw [highBits_succ, exec_append, exec_moveBit (by omega) (by omega) (by omega),
      Option.bind_some]
    by_cases hle : 2 ^ (shift + k) ≤ n
    · have hsum : n = n - 2 ^ (shift + k) + 2 ^ shift * 2 ^ k := by
        rw [← Nat.pow_add]
        omega
      have hmod : n % 2 ^ shift = (n - 2 ^ (shift + k)) % 2 ^ shift := by
        conv => lhs; rw [hsum]
        rw [Nat.add_mul_mod_self_left]
      have hdiv : n / 2 ^ shift = (n - 2 ^ (shift + k)) / 2 ^ shift + 2 ^ k := by
        conv => lhs; rw [hsum]
        rw [Nat.add_mul_div_left _ _ (Nat.pow_pos (by decide))]
      rw [if_pos hle, ih (by omega) (by omega) (by omega), hmod, hdiv, Nat.add_right_comm,
        Nat.add_assoc]
    · rw [if_neg hle, ih (by omega) (by omega) (by omega)]

theorem exec_highScript {w : Width} {n : Nat} (hn : n < 2 ^ 31) :
    exec (shaEnv H) (highScript w) ⟨⟨encode n :: m, l⟩, []⟩ =
      some ⟨⟨encode (n / 2 ^ (31 - w.bits) : Nat) :: m, l⟩, []⟩ := by
  have hle := w.le
  have hz : ([] : Bytes) = encode (0 : Nat) := rfl
  have hw : 2 ^ w.bits ≤ 2 ^ 31 := Nat.pow_le_pow_right (by decide) hle
  unfold highScript
  rw [exec_append, exec_append, exec_append, exec_bytes (by decide), Option.bind_some, exec_swap,
    exec_ops_nil, Option.bind_some, hz,
    exec_highBits _ (by omega) (by rwa [Nat.sub_add_cancel hle]) (by omega), Option.bind_some,
    exec_drop, exec_ops_nil, Nat.zero_add]

theorem low_trim (w : Width) (v : Int) : low.trim w v = v % 2 ^ w.bits := by
  rw [trim, Nat.one_shiftLeft, Int.natCast_pow]
  rfl

theorem high_trim (w : Width) (v : Int) : high.trim w v = v / 2 ^ (31 - w.bits) := by
  rw [trim, Nat.one_shiftLeft, Int.natCast_pow]
  rfl

theorem exec_script (order : BitOrder) (w : Width) {v : Int} (hv : 0 ≤ v) (hv' : v < 2 ^ 31) :
    exec (shaEnv H) (order.script w) ⟨⟨encode v :: m, l⟩, []⟩ =
      some ⟨⟨encode (order.trim w v) :: m, l⟩, []⟩ := by
  obtain ⟨n, rfl⟩ := Int.eq_ofNat_of_zero_le hv
  have hn : n < 2 ^ 31 := by omega
  unfold BitOrder.script
  by_cases hw : w.bits = 31
  · rw [if_pos hw, exec_nil]
    cases order with
    | low =>
      rw [low_trim, hw, Int.emod_eq_of_lt hv hv']
    | high =>
      rw [high_trim, hw, Nat.sub_self, Int.pow_zero, Int.ediv_one]
  · rw [if_neg hw]
    cases order with
    | low =>
      simp only [exec_lowScript hw hn, low_trim, Int.natCast_emod, Int.natCast_pow]
      rfl
    | high =>
      simp only [exec_highScript hn, high_trim, Int.natCast_ediv, Int.natCast_pow]
      rfl

theorem trim_bounds (order : BitOrder) (w : Width) {v : Int} (hv : 0 ≤ v) (hv' : v < 2 ^ 31) :
    0 ≤ order.trim w v ∧ order.trim w v < 2 ^ w.bits := by
  have hpow (k : Nat) : (0 : Int) < 2 ^ k := Int.pow_pos (by decide)
  cases order with
  | low =>
    rw [low_trim]
    exact ⟨Int.emod_nonneg _ (Int.ne_of_gt (hpow _)), Int.emod_lt_of_pos _ (hpow _)⟩
  | high =>
    rw [high_trim]
    refine ⟨Int.ediv_nonneg hv (Int.le_of_lt (hpow _)), ?_⟩
    rw [Int.ediv_lt_iff_lt_mul (hpow _), ← Int.pow_add, Nat.add_sub_cancel' w.le]
    exact hv'

theorem highBits_shifts (shift k : Nat) : Shifts (highBits shift k) 0 0 2 := by
  induction k with
  | zero => exact Shifts.nil.of_eq rfl rfl (by decide)
  | succ k ih =>
    rw [highBits_succ]
    exact ((moveBit_shifts shift k).append ih).of_eq rfl rfl (by decide)

theorem powers_shifts {w : Width} (hw : w.bits ≠ 31) :
    Shifts (ops [.toAlt] ++ num (2 ^ w.bits : Nat) ++ times (30 - w.bits) (ops [.dup, .dup, .add]) ++
      ops [.fromAlt]) (31 - w.bits) 0 (33 - w.bits) := by
  have hle := w.le
  have hpowers := (Shifts.line (s := ops [.dup, .dup, .add]) rfl).times (30 - w.bits)
    (k := 1) (by decide) (by decide)
  exact ((((Shifts.line (s := ops [.toAlt]) rfl).append (.line (s := num _) rfl)).append
    hpowers).append (.line (s := ops [.fromAlt]) rfl)).of_eq (by omega) (by omega) (by omega)

theorem lowScript_shifts {w : Width} (hw : w.bits ≠ 31) :
    Shifts (lowScript w) 0 0 (33 - w.bits) := by
  have hle := w.le
  have hreduce := reduceScript_shifts.times (31 - w.bits) (k := 0) (by decide) (by decide)
  rw [lowScript_eq]
  exact ((powers_shifts hw).append hreduce).of_eq (by omega) (by omega) (by omega)

theorem highScript_shifts (w : Width) : Shifts (highScript w) 0 0 3 :=
  ((((Shifts.line (s := bytes []) rfl).append (.line (s := ops [.swap]) rfl)).append
    (highBits_shifts (31 - w.bits) w.bits)).append (.line (s := ops [.drop]) rfl)).of_eq
    rfl rfl (by decide)

/-- The most items that the index script holds beside those that it finds. -/
def room (order : BitOrder) (w : Width) : Nat :=
  if w.bits = 31 then 0
  else
    match order with
    | .low => 33 - w.bits
    | .high => 3

theorem room_le (order : BitOrder) (w : Width) : order.room w ≤ 32 := by
  have hpos := w.pos
  unfold room
  split
  · omega
  · cases order <;> simp only <;> omega

theorem script_shifts (order : BitOrder) (w : Width) :
    Shifts (order.script w) 0 0 (order.room w) := by
  have hle := w.le
  unfold BitOrder.script room
  by_cases hw : w.bits = 31
  · rw [if_pos hw, if_pos hw]
    exact .nil
  · rw [if_neg hw, if_neg hw]
    cases order with
    | low => exact (lowScript_shifts hw).of_eq rfl rfl (by simp only; omega)
    | high => exact highScript_shifts w

/-- After one of its initial parts the script holds as many items. -/
theorem script_fills (order : BitOrder) (w : Width) :
    ∃ s d a p, s <+: order.script w ∧ Shifts s d a p ∧ d + a = order.room w := by
  have hpos := w.pos
  have hle := w.le
  unfold BitOrder.script room
  by_cases hw : w.bits = 31
  · rw [if_pos hw, if_pos hw]
    exact ⟨[], 0, 0, 0, List.nil_prefix, .nil, rfl⟩
  · rw [if_neg hw, if_neg hw]
    cases order with
    | low =>
      -- the powers lie under the value, and the first comparison has copied its operands
      have hfirst : ops [.swap, .dup2] <+: times (31 - w.bits) reduceScript := by
        rw [show 31 - w.bits = 30 - w.bits + 1 by omega, times_succ]
        exact ⟨_, rfl⟩
      have hpart := (powers_shifts hw).append (.line (s := ops [.swap, .dup2]) rfl)
      refine ⟨_, _, _, _, ?_, hpart, by simp only; omega⟩
      simp only [lowScript_eq]
      exact (List.prefix_append_right_inj _).mpr hfirst
    | high =>
      -- the first power has been pushed above a copy of the value
      obtain ⟨k, hk⟩ := Nat.exists_eq_add_of_le' hpos
      have hfirst : ops [.dup] ++ num (2 ^ (31 - w.bits + k) : Nat) <+:
          highBits (31 - w.bits) w.bits ++ ops [.drop] := by
        rw [hk, highBits_succ]
        exact ⟨_, rfl⟩
      have hpart : Shifts (bytes [] ++ ops [.swap] ++
          (ops [.dup] ++ num (2 ^ (31 - w.bits + k) : Nat))) 3 0 3 := .line rfl
      refine ⟨_, _, _, _, ?_, hpart, rfl⟩
      simp only [highScript, List.append_assoc]
      exact (List.prefix_append_right_inj _).mpr ((List.prefix_append_right_inj _).mpr hfirst)

/-- The index script on a machine replaces a value by its index, which is of the width, and leaves
the rest as it was, if there is room for the items it needs; if not, the limit stops it. -/
theorem script_trims {h : Hasher} (ho : h.opcode = .sha256) (order : BitOrder) (w : Width) {v : Int}
    (hv : 0 ≤ v) (hv' : v ≤ 2 ^ 31 - 1) (rest alt : List Bytes) {m : Machine}
    (ha : m.active = true) (hstack : m.stack = ⟨encode v :: rest, alt⟩)
    (hsize : m.stack.size ≤ 1000) :
    (m.stack.size + order.room w ≤ 1000 →
      m.Leaves ⟨h, {}⟩ (order.script w) ⟨encode (order.trim w v) :: rest, alt⟩) ∧
    (1000 < m.stack.size + order.room w → m.Overflows ⟨h, {}⟩ (order.script w)) ∧
    0 ≤ order.trim w v ∧ order.trim w v < 2 ^ w.bits := by
  obtain ⟨o, H⟩ := h
  obtain rfl : o = .sha256 := ho
  have hexec := order.exec_script (H := H) (m := rest) (l := alt) w hv (by omega)
  rw [← hstack] at hexec
  refine ⟨?_, ?_, order.trim_bounds w hv (by omega)⟩
  · intro hroom
    exact (order.script_shifts w).leaves ha (by omega) hexec
  · intro hfull
    obtain ⟨s, d, a, p, hpart, hs, hitems⟩ := order.script_fills w
    exact hs.overflows hpart ha hsize (by omega) hexec

/-- The lowest three bits of the largest value need room for thirty items: beside 970 the script
goes through, with one more it does not. -/
theorem script_trims_full :
    let w : Width := ⟨3, by decide, by decide⟩
    let m (k : Nat) : Machine := { stack := ⟨encode 2147483647 :: List.replicate k [], [[9]]⟩ }
    (m 968).Leaves ⟨Hasher.sha256, {}⟩ (low.script w) ⟨[7] :: List.replicate 968 [], [[9]]⟩ ∧
      (m 969).Overflows ⟨Hasher.sha256, {}⟩ (low.script w) := by
  intro w m
  have hsize (k : Nat) : (m k).stack.size = k + 2 := by simp [m, Stacks.size]
  have hroom : low.room w = 30 := rfl
  have htrim : encode (low.trim w 2147483647) = [7] := by cbv
  have hrun (k : Nat) (hk : k ≤ 998) := script_trims (h := Hasher.sha256) rfl low w
    (v := 2147483647) (by decide) (by decide) (List.replicate k []) [[9]] (m := m k) rfl rfl
    (by rw [hsize]; omega)
  simp only [htrim] at hrun
  exact ⟨(hrun 968 (by decide)).1 (by rw [hsize, hroom]),
    (hrun 969 (by decide)).2.1 (by rw [hsize, hroom]; decide)⟩

end

end BitOrder

end HintScript
