import HintScript.Merkle
import HintScript.Proofs.BitOrder

set_option autoImplicit false

namespace HintScript.Merkle

open Number Script

section

variable {H : Bytes → Bytes} {m l : List Bytes}

def bitItems (k n : Nat) : List Bytes := (List.range k).map fun i => ofBool (n.testBit i)

theorem bitItems_succ (k n : Nat) :
    bitItems (k + 1) n = ofBool (n % 2 = 1) :: bitItems k (n / 2) := by
  unfold bitItems
  rw [List.range_succ_eq_map, List.map_cons, List.map_map, Nat.testBit_zero]
  congr 1
  apply List.map_congr_left
  intro i hi
  simp [Nat.testBit_succ]

/-- The index of the width that an item stands for. -/
def readIndex (w : Width) (item : Bytes) : Option Nat :=
  (decode item sizeLimit).toOption.bind fun v =>
    if 0 ≤ v ∧ v < (2 ^ w.bits : Nat) then some v.toNat else none

theorem readIndex_encode {w : Width} {n : Nat} (hn : n < 2 ^ w.bits) :
    readIndex w (encode n) = some n := by
  have hpow : 2 ^ w.bits ≤ 2 ^ 31 := Nat.pow_le_pow_right (by decide) w.le
  have hread := decode_encode_small (v := (n : Int)) (by omega)
  have hrange : (0 : Int) ≤ n ∧ (n : Int) < (2 ^ w.bits : Nat) := by omega
  simp only [readIndex, hread, Except.toOption, Option.bind_some, if_pos hrange, Int.toNat_natCast]

theorem readIndex_eq_some_iff {w : Width} {item : Bytes} {n : Nat} :
    readIndex w item = some n ↔ item = encode n ∧ n < 2 ^ w.bits := by
  constructor
  · intro h
    obtain ⟨v, hv, hn⟩ := Option.bind_eq_some_iff.mp h
    rw [toOption_eq_some_iff, decode_eq_ok_iff] at hv
    split at hn
    · rename_i hrange
      cases hn
      rw [Int.toNat_of_nonneg hrange.1]
      exact ⟨hv.2, by omega⟩
    · cases hn
  · intro h
    rw [h.1]
    exact readIndex_encode h.2

theorem exec_verify_read {p : Prop} [Decidable p] {n : Nat} :
    exec (shaEnv H) (ops [.verify]) ⟨⟨ofBool p :: m, l⟩, []⟩ =
      (if p then some n else none).map fun _ => ⟨⟨m, l⟩, []⟩ := by
  rw [exec_verify, isTrue_ofBool]
  by_cases hp : p <;> simp [hp]

/-- The range check goes through for the indices of the width and for no other item. -/
theorem exec_rangeScript (w : Width) (item : Bytes) :
    exec (shaEnv H) (rangeScript w) ⟨⟨item :: m, l⟩, []⟩ =
      (readIndex w item).map fun _ => ⟨⟨item :: m, l⟩, []⟩ := by
  have hle := w.le
  unfold rangeScript readIndex
  rw [exec_append, exec_append, exec_dup, exec_ops_nil, Option.bind_some, exec_num (by decide),
    Option.bind_some]
  by_cases hw : w.bits = 31
  · rw [if_pos hw]
    cases hread : decode item sizeLimit with
    | error e => exact exec_greaterEq_none hread (by decide)
    | ok v =>
      -- four bytes have 31 bits beside the sign, so there is no upper bound to check
      have hsmall := natAbs_lt_of_decode hread
      have hrange : v ≥ 0 ↔ 0 ≤ v ∧ v < (2 ^ w.bits : Nat) := by
        rw [hw]
        omega
      rw [exec_greaterEq hread (by decide), decide_eq_decide.mpr hrange]
      exact exec_verify_read
  · have hpow := BitOrder.natAbs_pow_lt (j := w.bits) (by omega)
    rw [if_neg hw, exec_append, Nat.one_shiftLeft, exec_num hpow, Option.bind_some]
    cases hread : decode item sizeLimit with
    | error e => exact exec_within_none hread (by decide) hpow
    | ok v =>
      rw [exec_within hread (by decide) hpow]
      exact exec_verify_read

def bitDown (k : Nat) : Script :=
  ops [.dup] ++ num (2 ^ k : Nat) ++ ops [.greaterEq, .dup, .toAlt] ++
    (.op .ifTrue :: ((num (2 ^ k : Nat) ++ ops [.sub]) ++ [.op .endIf]))

theorem bitsDown_succ (k : Nat) : bitsDown (k + 1) = bitDown (k + 1) ++ bitsDown k := by
  rw [bitDown, ← Nat.one_shiftLeft]
  rfl

theorem bitDown_shifts (k : Nat) : Shifts (bitDown k) 0 1 2 :=
  ((((Shifts.line (s := ops [.dup]) rfl).append (.line (s := num _) rfl)).append
    (.line (s := ops [.greaterEq, .dup, .toAlt]) rfl)).append
    (.only (.inl rfl) (.line (s := num _ ++ ops [.sub]) rfl))).of_eq rfl rfl (by decide)

theorem exec_bitDown {k n : Nat} (hk : k < 31) (hn : n < 2 ^ (k + 1)) :
    exec (shaEnv H) (bitDown k) ⟨⟨encode n :: m, l⟩, []⟩ =
      some ⟨⟨encode (n % 2 ^ k : Nat) :: m, ofBool (n.testBit k) :: l⟩, []⟩ := by
  have hpow := BitOrder.natAbs_pow_lt hk
  have hbound : 2 ^ (k + 1) ≤ 2 ^ 31 := Nat.pow_le_pow_right (by decide) hk
  have hbit : n.testBit k = decide ((n : Int) ≥ (2 ^ k : Nat)) := by
    rw [Nat.testBit_eq_decide_div_mod_eq, decide_eq_decide]
    rw [Nat.pow_succ] at hn
    have hdiv : n / 2 ^ k < 2 := Nat.div_lt_of_lt_mul hn
    have hone : 1 ≤ n / 2 ^ k ↔ 1 * 2 ^ k ≤ n := Nat.le_div_iff_mul_le (Nat.pow_pos (by decide))
    generalize n / 2 ^ k = q at hdiv hone ⊢
    omega
  unfold bitDown
  rw [exec_append, exec_append, exec_append, exec_dup, exec_ops_nil, Option.bind_some,
    exec_num hpow, Option.bind_some, exec_greaterEq (decode_encode_small (by omega)) hpow, exec_dup,
    exec_toAlt, exec_ops_nil, Option.bind_some,
    Shifts.exec_only (.line (s := num _ ++ ops [.sub]) rfl), ← hbit]
  by_cases hle : 2 ^ k ≤ n
  · have hmod : n % 2 ^ k = n - 2 ^ k := by
      rw [Nat.mod_eq_sub_mod hle, Nat.mod_eq_of_lt]
      rw [Nat.pow_succ] at hn
      omega
    rw [if_pos (by rw [hbit]; exact decide_eq_true (by omega)), exec_append, exec_num hpow,
      Option.bind_some, exec_sub (by omega) hpow, exec_ops_nil, hmod, Int.natCast_sub hle]
  · rw [if_neg (by rw [hbit, decide_eq_true_iff]; omega), Nat.mod_eq_of_lt (by omega)]

theorem exec_bitsDown (k : Nat) (hk : k < 31) {n : Nat} (hn : n < 2 ^ (k + 1)) {l : List Bytes} :
    exec (shaEnv H) (bitsDown k) ⟨⟨encode n :: m, l⟩, []⟩ =
      some ⟨⟨ofBool (n % 2 = 1) :: m, bitItems k (n / 2) ++ l⟩, []⟩ := by
  induction k generalizing n l with
  | zero =>
    have hcases : n = 0 ∨ n = 1 := by omega
    rcases hcases with rfl | rfl <;> rfl
  | succ k ih =>
    have hmod : n % 2 ^ (k + 1) % 2 = n % 2 :=
      Nat.mod_mod_of_dvd n (Nat.pow_dvd_pow 2 (Nat.succ_pos k))
    have hitems : bitItems k (n % 2 ^ (k + 1) / 2) ++ [ofBool (n.testBit (k + 1))] =
        bitItems (k + 1) (n / 2) := by
      unfold bitItems
      rw [List.range_succ, List.map_append, List.map_singleton, Nat.testBit_succ]
      congr 1
      apply List.map_congr_left
      intro i hi
      rw [← Nat.testBit_succ, ← Nat.testBit_succ, Nat.testBit_mod_two_pow,
        decide_eq_true (Nat.succ_lt_succ (List.mem_range.mp hi)), Bool.true_and]
    rw [bitsDown_succ, exec_append, exec_bitDown hk hn, Option.bind_some,
      ih (by omega) (Nat.mod_lt _ (Nat.pow_pos (by decide))), hmod, ← hitems]
    simp

theorem exec_bitsScript (w : Width) (item : Bytes) :
    exec (shaEnv H) (bitsScript w) ⟨⟨item :: m, l⟩, []⟩ =
      (readIndex w item).map fun n => ⟨⟨m, bitItems w.bits n ++ l⟩, []⟩ := by
  have hpos := w.pos
  have hle := w.le
  unfold bitsScript
  rw [exec_append, exec_append, exec_rangeScript]
  cases hread : readIndex w item with
  | none => rfl
  | some n =>
    obtain ⟨rfl, hn⟩ := readIndex_eq_some_iff.mp hread
    obtain ⟨k, hk⟩ : ∃ k, w.bits = k + 1 := ⟨w.bits - 1, by omega⟩
    rw [hk] at hn ⊢
    rw [Option.map_some, Option.map_some, Option.bind_some, Nat.add_sub_cancel,
      exec_bitsDown k (by omega) hn, Option.bind_some, exec_toAlt, exec_ops_nil, bitItems_succ]
    rfl

theorem rangeScript_shifts (w : Width) : Shifts (rangeScript w) 0 0 3 := by
  have hcheck : Shifts (if w.bits = 31 then ops [.greaterEq, .verify]
      else num (1 <<< w.bits : Nat) ++ ops [.within, .verify]) (-2) 0 1 := by
    split
    · exact (Shifts.line (s := ops [.greaterEq, .verify]) rfl).of_eq rfl rfl (by decide)
    · exact (Shifts.line (s := num _ ++ ops [.within, .verify]) rfl).of_eq rfl rfl (by decide)
  exact (((Shifts.line (s := ops [.dup]) rfl).append (.line (s := num 0) rfl)).append
    hcheck).of_eq rfl rfl (by decide)

theorem bitsDown_shifts (k : Nat) : Shifts (bitsDown k) 0 k (k + 1) := by
  induction k with
  | zero => exact Shifts.nil.of_eq rfl rfl (by decide)
  | succ k ih =>
    rw [bitsDown_succ]
    exact ((bitDown_shifts (k + 1)).append ih).of_eq rfl (by omega) (by omega)

/-- The most items that the script holds beside those that it finds: the operands of the range check,
or the bits on the alt stack with the last comparison. -/
def bitsRoom (w : Width) : Nat := max 3 w.bits

theorem bitsRoom_le (w : Width) : bitsRoom w ≤ w.bits + 2 := by
  have hpos := w.pos
  unfold bitsRoom
  omega

theorem bitsScript_shifts (w : Width) : Shifts (bitsScript w) (-1) w.bits (bitsRoom w) := by
  have hpos := w.pos
  unfold bitsRoom
  exact (((rangeScript_shifts w).append (bitsDown_shifts (w.bits - 1))).append
    (.line (s := ops [.toAlt]) rfl)).of_eq rfl (by omega) (by omega)

/-- At its last comparison the script holds the other bits and two operands. -/
theorem bitsDown_fills (k : Nat) :
    ∃ s d a p, s <+: bitsDown (k + 1) ∧ Shifts s d a p ∧ d + a = k + 2 := by
  induction k with
  | zero => exact ⟨ops [.dup] ++ num (1 <<< 1 : Nat), 2, 0, 2, ⟨_, rfl⟩, .line rfl, rfl⟩
  | succ k ih =>
    obtain ⟨s, d, a, p, hpart, hs, hitems⟩ := ih
    rw [bitsDown_succ]
    exact ⟨_, _, _, _, (List.prefix_append_right_inj _).mpr hpart, (bitDown_shifts (k + 2)).append hs,
      by omega⟩

theorem bitsScript_fills (w : Width) :
    ∃ s d a p, s <+: bitsScript w ∧ Shifts s d a p ∧ d + a = bitsRoom w := by
  have hpos := w.pos
  unfold bitsScript bitsRoom
  by_cases hw : w.bits ≤ 3
  · have hbound : rangeScript w =
        ops [.dup] ++ num 0 ++ (num (1 <<< w.bits : Nat) ++ ops [.within, .verify]) := by
      rw [rangeScript, if_neg (by omega)]
    refine ⟨ops [.dup] ++ num 0 ++ num (1 <<< w.bits : Nat), 3, 0, 3, ?_, .line rfl, by omega⟩
    rw [hbound]
    simp only [List.append_assoc, List.prefix_append_right_inj]
    exact List.prefix_append _ _
  · obtain ⟨k, hk⟩ : ∃ k, w.bits - 1 = k + 1 := ⟨w.bits - 2, by omega⟩
    obtain ⟨s, d, a, p, hpart, hs, hitems⟩ := bitsDown_fills k
    rw [hk, List.append_assoc]
    exact ⟨_, _, _, _, (List.prefix_append_right_inj _).mpr (hpart.trans (List.prefix_append _ _)),
      (rangeScript_shifts w).append hs, by omega⟩

end

theorem sha256_notMem_bitsDown (k : Nat) : .op .sha256 ∉ bitsDown k := by
  induction k with
  | zero => simp [bitsDown]
  | succ k ih => simp [bitsDown, ops, num, ih]

theorem sha256_notMem_bitsScript (w : Width) : .op .sha256 ∉ bitsScript w := by
  have hbits := sha256_notMem_bitsDown (w.bits - 1)
  unfold bitsScript rangeScript
  split <;> simp [ops, num, hbits]

theorem condition_of_bitItems {k n j : Nat} (hj : j < k) :
    ∃ x, (bitItems k n)[j]? = some x ∧ x = (if n.testBit j then [1] else []) ∧
      ∀ code main alt,
        Machine.condition code ⟨x :: main, alt⟩ = .ok (n.testBit j) ⟨main, alt⟩ := by
  refine ⟨ofBool (n.testBit j), by simp [bitItems, hj], rfl, fun code main alt => ?_⟩
  cases n.testBit j <;> rfl

/-- The bits script on a machine, with any hasher whose opcode it does not use, takes the indices of
the width and stops at every other item. Of an index it leaves the bits on the alt stack, bit 0 on
top and each a condition, where there is room for the items that it needs. -/
theorem bitsScript_decomposes {h : Hasher} (w : Width) (hh : .op h.opcode ∉ bitsScript w)
    (item : Bytes) (rest alt : List Bytes) {m : Machine} (ha : m.active = true)
    (hstack : m.stack = ⟨item :: rest, alt⟩) (hsize : m.stack.size ≤ 1000) :
    (∀ n : Nat, n < 2 ^ w.bits → item = encode n →
      m.Needs ⟨h, {}⟩ (bitsScript w) (bitsRoom w) ⟨rest, bitItems w.bits n ++ alt⟩ ∧
      (bitItems w.bits n).length = w.bits ∧
      ∀ j < w.bits, ∃ x, (bitItems w.bits n)[j]? = some x ∧ x = (if n.testBit j then [1] else []) ∧
        ∀ code main alt,
          Machine.condition code ⟨x :: main, alt⟩ = .ok (n.testBit j) ⟨main, alt⟩) ∧
    ((¬ ∃ n : Nat, n < 2 ^ w.bits ∧ item = encode n) → m.Aborts ⟨h, {}⟩ (bitsScript w)) ∧
    (m.stack.size + bitsRoom w ≤ 1000 →
      (m.Aborts ⟨h, {}⟩ (bitsScript w) ↔ ¬ ∃ n : Nat, n < 2 ^ w.bits ∧ item = encode n)) := by
  have hsha := sha256_notMem_bitsScript w
  have hexec := exec_bitsScript (H := h.digest) (m := rest) (l := alt) w item
  rw [← hstack] at hexec
  have hgood (n : Nat) (hn : n < 2 ^ w.bits) (hitem : item = encode n) :
      m.Needs ⟨h, {}⟩ (bitsScript w) (bitsRoom w) ⟨rest, bitItems w.bits n ++ alt⟩ := by
    rw [readIndex_eq_some_iff.mpr ⟨hitem, hn⟩] at hexec
    obtain ⟨s, d, a, p, hpart, hs, hitems⟩ := bitsScript_fills w
    refine .of_unused (H := h.digest) hh hsha ⟨fun hroom => ?_, fun hfull => ?_⟩
    · exact (bitsScript_shifts w).leaves ha hroom hexec
    · exact hs.overflows hpart ha hsize (by rw [hitems]; exact hfull) hexec
  have hbad (hno : ¬ ∃ n : Nat, n < 2 ^ w.bits ∧ item = encode n) :
      m.Aborts ⟨h, {}⟩ (bitsScript w) := by
    have hrun := (bitsScript_shifts w).attains_or_aborts (H := h.digest) ha
    cases hread : readIndex w item with
    | some n =>
      obtain ⟨hitem, hn⟩ := readIndex_eq_some_iff.mp hread
      exact absurd ⟨n, hn, hitem⟩ hno
    | none =>
      rw [hexec, hread] at hrun
      exact .of_unused hh hsha hrun
  refine ⟨fun n hn hitem => ⟨hgood n hn hitem, ?_, fun j hj => condition_of_bitItems hj⟩, hbad,
    fun hroom => ⟨fun hstop hindex => ?_, hbad⟩⟩
  · simp [bitItems]
  · have hroom' : (m.stack.size : Int) + bitsRoom w ≤ 1000 := by omega
    obtain ⟨n, hn, hitem⟩ := hindex
    exact (hgood n hn hitem).not_aborts hroom' hstop

/-- Six has the three bits 110. Eight is too large for them, and six with a byte too many is no
encoding; of 31 bits every number that is not negative is an index. -/
theorem bitsScript_decomposes_six :
    let w : Width := ⟨3, by decide, by decide⟩
    let full : Width := ⟨31, by decide, by decide⟩
    let m (item : Bytes) : Machine := { stack := ⟨[item, [42]], [[9]]⟩ }
    let env : Env := ⟨Hasher.sha256, {}⟩
    (m [6]).Leaves env (bitsScript w) ⟨[[42]], [[], [1], [1], [9]]⟩ ∧
      (m [8]).Aborts env (bitsScript w) ∧ (m [6, 0]).Aborts env (bitsScript w) ∧
      (m [0xff, 0xff, 0xff, 0x7f]).Leaves env (bitsScript full)
        ⟨[[42]], List.replicate 31 [1] ++ [[9]]⟩ ∧
      (m [0x81]).Aborts env (bitsScript full) := by
  intro w full m env
  have hsize (item : Bytes) : (m item).stack.size ≤ 1000 := show 3 ≤ 1000 by decide
  have hrun (v : Width) (item : Bytes) := bitsScript_decomposes (h := Hasher.sha256) v
    (sha256_notMem_bitsScript v) item [[42]] [[9]] rfl rfl (hsize item)
  have hno {v : Width} {item : Bytes} (hread : readIndex v item = none) :
      ¬ ∃ n : Nat, n < 2 ^ v.bits ∧ item = encode n := by
    rintro ⟨n, hn, hitem⟩
    rw [readIndex_eq_some_iff.mpr ⟨hitem, hn⟩] at hread
    cases hread
  have hsix := ((hrun w [6]).1 6 (by decide) (by decide)).1
  have hlargest := ((hrun full [0xff, 0xff, 0xff, 0x7f]).1 (2 ^ 31 - 1) (by decide) (by decide)).1
  exact ⟨hsix.leaves (by decide), (hrun w [8]).2.1 (hno (by decide)),
    (hrun w [6, 0]).2.1 (hno (by decide)), hlargest.leaves (by decide),
    (hrun full [0x81]).2.1 (hno (by decide))⟩

end HintScript.Merkle
