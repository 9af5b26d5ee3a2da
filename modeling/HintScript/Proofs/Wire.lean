import HintScript.Proofs.Number
import HintScript.Script

set_option autoImplicit false

namespace HintScript

def Opcode.isPushData : Opcode → Bool
  | pushData1 | pushData2 | pushData4 => true
  | _ => false

def Item.Normal : Item → Prop
  | .op o => o.pushed? = none ∧ o.isPushData = false
  | .push data => data.length < 2 ^ 32

instance : DecidablePred Item.Normal
  | .op o => inferInstanceAs (Decidable (o.pushed? = none ∧ o.isPushData = false))
  | .push data => inferInstanceAs (Decidable (data.length < 2 ^ 32))

/-! ### Written items -/

namespace Item

theorem ofOpcode_normal {o : Opcode} (h : o.isPushData = false) : (ofOpcode o).Normal := by
  cases o with
  | small k => revert k; decide
  | pushData1 | pushData2 | pushData4 => cases h
  | _ => decide

theorem Normal.fits {i : Item} (h : i.Normal) : i.Fits := by
  cases i with
  | op o => trivial
  | push data => exact h

theorem ofOpcode_fits (o : Opcode) : (ofOpcode o).Fits := by
  cases o with
  | small k => revert k; decide
  | _ => decide

theorem wire_ofOpcode (o : Opcode) : (ofOpcode o).wire = [o.code] := by
  cases o with
  | small k => revert k; decide
  | _ => rfl

theorem lengthWidth_cases {c : UInt8} {w : Nat} (h : Script.lengthWidth? c = some w) :
    c = Opcode.pushData1.code ∧ w = 1 ∨ c = Opcode.pushData2.code ∧ w = 2 ∨
      c = Opcode.pushData4.code ∧ w = 4 := by
  unfold Script.lengthWidth? at h
  split at h
  · simp_all
  · split at h
    · simp_all
    · split at h <;> simp_all

/-- The length of `data` stands after `c`, in the fewest of one, two or four bytes. -/
structure Counted (data : Bytes) (c : UInt8) (w : Nat) : Prop where
  code : Script.lengthWidth? c = some w
  fits : data.length < 2 ^ 32 → data.length < 256 ^ w
  least : ∀ w', w' = 1 ∨ w' = 2 ∨ w' = 4 → data.length < 256 ^ w' → w ≤ w'

theorem ofOpcode_of_smallNumber {data : Bytes} {k : UInt8} (h : smallNumber? data = some k) :
    ∃ o : Opcode, o.isPushData = false ∧ ofOpcode o = .push data := by
  unfold smallNumber? at h
  split at h
  · rename_i b
    split at h
    · rename_i hb
      have hpos : 1 ≤ b.toNat := UInt8.le_iff_toNat_le.mp hb.1
      have hle : b.toNat ≤ 16 := UInt8.le_iff_toNat_le.mp hb.2
      have hne : (⟨b.toNat, by omega⟩ : Fin 17) ≠ 0 := by
        intro h0
        have := congrArg Fin.val h0
        simp only [Fin.val_zero] at this
        omega
      refine ⟨.small ⟨b.toNat, by omega⟩, rfl, ?_⟩
      simp only [ofOpcode, Opcode.pushed?, if_neg hne, UInt8.ofNat_toNat]
    · cases h
  · cases h

theorem wire_push_bare {data : Bytes} (hne : data ≠ []) (hk : smallNumber? data = none)
    (hneg : data ≠ [0x81]) :
    (Item.push data).wire =
      if data.length ≤ directLimit then UInt8.ofNat data.length :: data
      else if data.length < 256 then
        Opcode.pushData1.code :: (Bytes.ofNatLE 1 data.length ++ data)
      else if data.length < 65536 then
        Opcode.pushData2.code :: (Bytes.ofNatLE 2 data.length ++ data)
      else Opcode.pushData4.code :: (Bytes.ofNatLE 4 data.length ++ data) := by
  cases data with
  | nil => exact absurd rfl hne
  | cons b bs => simp only [wire, hk, if_neg hneg]

theorem wire_push (data : Bytes) :
    (∃ o : Opcode, o.isPushData = false ∧ ofOpcode o = .push data) ∨
    (1 ≤ data.length ∧ data.length ≤ directLimit ∧
      (Item.push data).wire = UInt8.ofNat data.length :: data) ∨
    directLimit < data.length ∧ ∃ c w, Counted data c w ∧
      (Item.push data).wire = c :: (Bytes.ofNatLE w data.length ++ data) := by
  by_cases hne : data = []
  · exact .inl ⟨.small 0, rfl, by rw [hne]; rfl⟩
  by_cases hneg : data = [0x81]
  · exact .inl ⟨.negOne, rfl, by rw [hneg]; rfl⟩
  cases hk : smallNumber? data with
  | some k => exact .inl (ofOpcode_of_smallNumber hk)
  | none =>
    have hpos : 1 ≤ data.length := List.length_pos_iff.mpr hne
    rw [wire_push_bare hne hk hneg]
    by_cases hle : data.length ≤ directLimit
    · exact .inr (.inl ⟨hpos, hle, if_pos hle⟩)
    rw [if_neg hle]
    refine .inr (.inr ⟨Nat.lt_of_not_le hle, ?_⟩)
    by_cases h₁ : data.length < 256
    · exact ⟨_, 1, ⟨rfl, fun _ => h₁, by omega⟩, if_pos h₁⟩
    rw [if_neg h₁]
    by_cases h₂ : data.length < 65536
    · exact ⟨_, 2, ⟨rfl, fun _ => h₂, by rintro w' (rfl | rfl | rfl) hw' <;> omega⟩, if_pos h₂⟩
    · exact ⟨_, 4, ⟨rfl, id, by rintro w' (rfl | rfl | rfl) hw' <;> omega⟩, if_neg h₂⟩

theorem length_wire_of_ofOpcode {data : Bytes} {o : Opcode} (h : ofOpcode o = .push data) :
    (Item.push data).wire.length = 1 := by
  rw [← h, wire_ofOpcode, List.length_singleton]

theorem length_wire_direct {data : Bytes} (h : data.length ≤ directLimit) :
    (Item.push data).wire.length ≤ data.length + 1 := by
  rcases wire_push data with ⟨o, -, hdata⟩ | ⟨-, -, hwire⟩ | ⟨hlong, -⟩
  · rw [length_wire_of_ofOpcode hdata]
    omega
  · rw [hwire, List.length_cons]
  · omega

theorem length_wire_counted {data : Bytes} {w : Nat} (hw : w = 1 ∨ w = 2 ∨ w = 4)
    (h : data.length < 256 ^ w) : (Item.push data).wire.length ≤ w + data.length + 1 := by
  rcases wire_push data with ⟨o, -, hdata⟩ | ⟨-, -, hwire⟩ | ⟨-, c, w', hc, hwire⟩
  · rw [length_wire_of_ofOpcode hdata]
    omega
  · rw [hwire, List.length_cons]
    omega
  · have hle := hc.least w hw h
    rw [hwire, List.length_cons, List.length_append, Bytes.length_ofNatLE]
    omega

end Item

/-! ### Items read back -/

namespace Script

theorem readData_append (data rest : Bytes) :
    readData data.length (data ++ rest) = .ok (.push data, rest) := by
  simp [readData]

theorem code_outside {o : Opcode} (h : o.isPushData = false) :
    ¬ (1 ≤ o.code.toNat ∧ o.code.toNat ≤ directLimit) ∧ lengthWidth? o.code = none := by
  cases o with
  | small k => revert k; decide
  | pushData1 | pushData2 | pushData4 => cases h
  | _ => decide

theorem readItem_code {o : Opcode} (h : o.isPushData = false) (total : Nat) (raw : Bytes) :
    readItem total o.code raw = .ok (Item.ofOpcode o, raw) := by
  obtain ⟨hdirect, hwidth⟩ := code_outside h
  simp only [readItem, if_neg hdirect, hwidth, Opcode.ofCode?_code]

theorem readItem_direct {n : Nat} (hpos : 1 ≤ n) (hle : n ≤ directLimit) (total : Nat)
    (raw : Bytes) : readItem total (UInt8.ofNat n) raw = readData n raw := by
  have hn : (UInt8.ofNat n).toNat = n := by
    unfold directLimit at hle
    rw [UInt8.toNat_ofNat']
    omega
  rw [readItem, hn, if_pos ⟨hpos, hle⟩]

theorem not_direct_of_lengthWidth {c : UInt8} {w : Nat} (h : lengthWidth? c = some w) :
    ¬ (1 ≤ c.toNat ∧ c.toNat ≤ directLimit) := by
  rcases Item.lengthWidth_cases h with ⟨rfl, -⟩ | ⟨rfl, -⟩ | ⟨rfl, -⟩ <;> decide

theorem readItem_counted {c : UInt8} {w n : Nat} (hc : lengthWidth? c = some w)
    (hn : n < 256 ^ w) (total : Nat) (raw : Bytes) :
    readItem total c (Bytes.ofNatLE w n ++ raw) = readData n raw := by
  have htake : (Bytes.ofNatLE w n ++ raw).take w = Bytes.ofNatLE w n :=
    List.take_left' (Bytes.length_ofNatLE w n)
  have hdrop : (Bytes.ofNatLE w n ++ raw).drop w = raw :=
    List.drop_left' (Bytes.length_ofNatLE w n)
  simp only [readItem, if_neg (not_direct_of_lengthWidth hc), hc, htake, hdrop,
    Bytes.length_ofNatLE, Nat.lt_irrefl, if_false, Bytes.toNatLE_ofNatLE, Nat.mod_eq_of_lt hn]

/-- A normal item is read back from its bytes, whatever follows them. -/
theorem readItem_wire {i : Item} (h : i.Normal) (total : Nat) (rest : Bytes) :
    ∃ c raw, i.wire ++ rest = c :: raw ∧ readItem total c raw = .ok (i, rest) := by
  cases i with
  | op o =>
    have ho : Item.ofOpcode o = .op o := by simp only [Item.ofOpcode, h.1]
    exact ⟨o.code, rest, rfl, by rw [readItem_code h.2, ho]⟩
  | push data =>
    rcases Item.wire_push data with ⟨o, ho, hdata⟩ | ⟨hpos, hle, hwire⟩ | ⟨-, c, w, hc, hwire⟩
    · refine ⟨o.code, rest, ?_, by rw [readItem_code ho, hdata]⟩
      rw [← hdata, Item.wire_ofOpcode]
      rfl
    · refine ⟨_, data ++ rest, by rw [hwire]; rfl, ?_⟩
      rw [readItem_direct hpos hle, readData_append]
    · refine ⟨c, Bytes.ofNatLE w data.length ++ (data ++ rest), ?_, ?_⟩
      · rw [hwire, List.cons_append, List.append_assoc]
      · rw [readItem_counted hc.code (hc.fits h), readData_append]

theorem readData_eq_ok {n : Nat} {raw rest : Bytes} {i : Item}
    (h : readData n raw = .ok (i, rest)) :
    ∃ data, i = .push data ∧ data.length = n ∧ raw = data ++ rest := by
  simp only [readData] at h
  split at h
  · cases h
  · rename_i hlen
    cases h
    refine ⟨raw.take n, rfl, ?_, (List.take_append_drop n raw).symm⟩
    rw [List.length_take] at hlen ⊢
    omega

theorem code_of_ofCode? {c : UInt8} {o : Opcode} (h : Opcode.ofCode? c = some o) : o.code = c := by
  have hcode := List.find?_some h
  simpa using hcode

theorem readItem_cases {total : Nat} {c : UInt8} {raw rest : Bytes} {i : Item}
    (h : readItem total c raw = .ok (i, rest)) :
    (∃ o : Opcode, o.isPushData = false ∧ i = Item.ofOpcode o ∧ raw = rest) ∨
    (∃ data, i = .push data ∧ data.length ≤ directLimit ∧ raw = data ++ rest) ∨
    ∃ w digits data, (w = 1 ∨ w = 2 ∨ w = 4) ∧ digits.length = w ∧ i = .push data ∧
      data.length < 256 ^ w ∧ raw = digits ++ (data ++ rest) := by
  simp only [readItem] at h
  split at h
  · rename_i hdirect
    obtain ⟨data, rfl, hlen, hraw⟩ := readData_eq_ok h
    exact .inr (.inl ⟨data, rfl, by omega, hraw⟩)
  · split at h
    · rename_i w hw
      split at h
      · cases h
      · rename_i hlen
        obtain ⟨data, rfl, hdata, hraw⟩ := readData_eq_ok h
        have hdigits : (raw.take w).length = w := by
          rw [List.length_take] at hlen ⊢
          omega
        have hlt := Bytes.toNatLE_lt (raw.take w)
        rw [← hdata, hdigits] at hlt
        refine .inr (.inr ⟨w, raw.take w, data, ?_, hdigits, rfl, hlt, ?_⟩)
        · rcases Item.lengthWidth_cases hw with ⟨-, h⟩ | ⟨-, h⟩ | ⟨-, h⟩ <;> simp [h]
        · rw [← hraw, List.take_append_drop]
    · rename_i hw
      split at h
      · rename_i o ho
        cases h
        refine .inl ⟨o, ?_, rfl, rfl⟩
        rw [← code_of_ofCode? ho] at hw
        cases o <;> first | rfl | cases hw
      · cases h

theorem normal_of_readItem {total : Nat} {c : UInt8} {raw rest : Bytes} {i : Item}
    (h : readItem total c raw = .ok (i, rest)) : i.Normal := by
  rcases readItem_cases h with ⟨o, ho, rfl, -⟩ | ⟨data, rfl, hle, -⟩ |
    ⟨w, digits, data, hw, -, rfl, hlt, -⟩
  · exact Item.ofOpcode_normal ho
  · unfold directLimit at hle
    change data.length < 2 ^ 32
    omega
  · change data.length < 2 ^ 32
    rcases hw with rfl | rfl | rfl <;> omega

/-- No item is read from fewer bytes than it is written with. -/
theorem length_wire_of_readItem {total : Nat} {c : UInt8} {raw rest : Bytes} {i : Item}
    (h : readItem total c raw = .ok (i, rest)) :
    i.wire.length + rest.length ≤ raw.length + 1 := by
  rcases readItem_cases h with ⟨o, ho, rfl, rfl⟩ | ⟨data, rfl, hle, rfl⟩ |
    ⟨w, digits, data, hw, hdigits, rfl, hlt, rfl⟩
  · rw [Item.wire_ofOpcode, List.length_singleton]
    omega
  · have hwire := Item.length_wire_direct hle
    rw [List.length_append]
    omega
  · have hwire := Item.length_wire_counted hw hlt
    rw [List.length_append, List.length_append]
    omega

theorem readFrom_cons {total : Nat} {acc : Script} {c : UInt8} {raw rest : Bytes} {i : Item}
    (h : readItem total c raw = .ok (i, rest)) :
    readFrom total acc (c :: raw) = readFrom total (i :: acc) rest := by
  rw [readFrom]
  split
  · rename_i e he
    cases he.symm.trans h
  · rename_i i' rest' hi
    cases hi.symm.trans h
    rfl

def Normal (s : Script) : Prop := ∀ i ∈ s, i.Normal

theorem readFrom_wire {s : Script} (h : s.Normal) (total : Nat) (acc : Script) :
    readFrom total acc s.wire = .ok (acc.reverse ++ s) := by
  -- after each item the reader stands where the next one starts
  induction s generalizing acc with
  | nil => simp [wire, readFrom]
  | cons i s ih =>
    obtain ⟨hi, hs⟩ := List.forall_mem_cons.mp h
    obtain ⟨c, raw, hwire, hread⟩ := readItem_wire hi total (wire s)
    have hcons : wire (i :: s) = c :: raw := hwire
    rw [hcons, readFrom_cons hread, ih hs, List.reverse_cons, List.append_assoc]
    rfl

theorem ofWire_wire {s : Script} (h : s.Normal) : ofWire s.wire = .ok s :=
  readFrom_wire h s.wire.length []

theorem readFrom_eq_ok {total : Nat} {acc s : Script} {raw : Bytes}
    (h : readFrom total acc raw = .ok s) :
    ∃ t : Script, s = acc.reverse ++ t ∧ t.Normal ∧ t.wire.length ≤ raw.length := by
  fun_induction readFrom total acc raw with
  | case1 acc =>
    cases h
    exact ⟨[], by simp, nofun, Nat.le_refl 0⟩
  | case2 acc c raw e he => cases h
  | case3 acc c raw i rest hread hlt ih =>
    obtain ⟨t, rfl, ht, hlen⟩ := ih h
    have hi := length_wire_of_readItem hread
    refine ⟨i :: t, by simp, List.forall_mem_cons.mpr ⟨normal_of_readItem hread, ht⟩, ?_⟩
    rw [wire, List.flatMap_cons, List.length_append, List.length_cons]
    change i.wire.length + t.wire.length ≤ raw.length + 1
    omega

theorem normal_of_ofWire {raw : Bytes} {s : Script} (h : ofWire raw = .ok s) :
    s.Normal ∧ s.wire.length ≤ raw.length := by
  obtain ⟨t, rfl, ht, hlen⟩ := readFrom_eq_ok h
  exact ⟨ht, hlen⟩

/-! ### Built scripts -/

instance (s : Script) : Decidable s.Normal := inferInstanceAs (Decidable (∀ i ∈ s, i.Normal))

section

variable {s t : Script}

theorem normal_nil : Normal [] := nofun

theorem normal_append : (s ++ t).Normal ↔ s.Normal ∧ t.Normal := List.forall_mem_append

theorem Normal.append (hs : s.Normal) (ht : t.Normal) : (s ++ t).Normal :=
  normal_append.mpr ⟨hs, ht⟩

theorem Normal.times (n : Nat) (hs : s.Normal) : (times n s).Normal := by
  induction n with
  | zero => exact normal_nil
  | succ n ih => exact hs.append ih

theorem normal_bytes {data : Bytes} (h : data.length < 2 ^ 32) : (bytes data).Normal :=
  List.forall_mem_singleton.mpr h

theorem normal_pushes {xs : List Bytes} :
    (pushes xs).Normal ↔ ∀ x ∈ xs, x.length < 2 ^ 32 := List.forall_mem_map

theorem normal_num {v : Int} (h : v.natAbs < 2 ^ 39) : (num v).Normal := by
  have hw := (Number.width_le_iff v 4).mpr h
  exact normal_bytes (by rw [Number.length_encode]; omega)

theorem normal_power {k : Nat} (h : k < 39) : (num (1 <<< k : Nat)).Normal := by
  apply normal_num
  rw [Int.natAbs_natCast, Nat.one_shiftLeft]
  exact Nat.pow_lt_pow_right (by decide) h

theorem normal_ops {codes : List Opcode}
    (h : (codes.all fun o => o.pushed?.isNone && !o.isPushData) = true) :
    (ops codes).Normal := by
  intro i hi
  obtain ⟨o, ho, rfl⟩ := List.mem_map.mp hi
  simpa [Item.Normal] using List.all_eq_true.mp h o ho

end

end Script

/-- Parts that a builder makes a normal script of. -/
inductive Part.Sound : Part → Prop where
  | nothing : Sound .nothing
  | op {o : Opcode} (h : o.isPushData = false) : Sound (.op o)
  | data {bytes : Bytes} (h : bytes.length < 2 ^ 32) : Sound (.data bytes)
  | num {value : Int} (h : (Number.encode value).length < 2 ^ 32) : Sound (.num value)
  | script {items : Script} (h : items.Normal) : Sound (.script items)
  | group {parts : List Part} (h : ∀ p ∈ parts, Sound p) : Sound (.group parts)

theorem Script.build_of_forall {parts : List Part}
    (h : ∀ p ∈ parts, ∃ s, p.build = .ok s ∧ s.Normal) :
    ∃ s, Script.build parts = .ok s ∧ s.Normal := by
  induction parts with
  | nil => exact ⟨[], rfl, normal_nil⟩
  | cons p parts ih =>
    obtain ⟨⟨s, hs, hsn⟩, hparts⟩ := List.forall_mem_cons.mp h
    obtain ⟨t, ht, htn⟩ := ih hparts
    refine ⟨s ++ t, ?_, hsn.append htn⟩
    rw [Script.build, hs, ht]
    rfl

theorem Part.Sound.build {p : Part} (h : p.Sound) : ∃ s, p.build = .ok s ∧ s.Normal := by
  induction h with
  | nothing => exact ⟨[], by rw [Part.build], Script.normal_nil⟩
  | op h => exact ⟨_, by rw [Part.build], List.forall_mem_singleton.mpr (Item.ofOpcode_normal h)⟩
  | data h => exact ⟨_, by rw [Part.build]; rfl, Script.normal_bytes h⟩
  | num h => exact ⟨_, by rw [Part.build]; rfl, Script.normal_bytes h⟩
  | script h => exact ⟨_, by rw [Part.build], h⟩
  | group h ih =>
    obtain ⟨s, hs, hn⟩ := Script.build_of_forall ih
    exact ⟨s, by rw [Part.build, hs], hn⟩

end HintScript
