import HintScript.Proofs.Shift
import HintScript.Work

set_option autoImplicit false

namespace HintScript.Work

open Number Script

theorem leadingZeroBits_replicate (k : Nat) (bs : Bytes) :
    leadingZeroBits (List.replicate k 0 ++ bs) = 8 * k + leadingZeroBits bs := by
  induction k with
  | zero => simp
  | succ k ih =>
    rw [List.replicate_succ, List.cons_append, leadingZeroBits, if_pos rfl, ih]
    omega

theorem le_leadingZeroBits_cons_iff {b : UInt8} {bs : Bytes} {r : Nat} (hr : r < 8) :
    r ≤ leadingZeroBits (b :: bs) ↔ b.toNat < 2 ^ (8 - r) := by
  have hpow : 0 < 2 ^ (8 - r) := Nat.pow_pos (by decide)
  unfold leadingZeroBits
  by_cases hb : b = 0
  · rw [if_pos hb, hb]
    simp only [UInt8.toNat_zero, hpow, iff_true]
    omega
  · have hne : b.toNat ≠ 0 := fun h0 => hb (UInt8.toNat_inj.mp h0)
    have hlog := Nat.log2_lt hne (k := 8 - r)
    have h8 : b.toNat.log2 < 8 := (Nat.log2_lt hne).mpr b.toNat_lt
    rw [if_neg hb, ← hlog]
    omega

theorem eq_replicate_of_le {k r : Nat} {bs : Bytes} (h : 8 * k + r ≤ leadingZeroBits bs) :
    bs = List.replicate k 0 ++ bs.drop k ∧ r ≤ leadingZeroBits (bs.drop k) := by
  induction k generalizing bs with
  | zero => exact ⟨rfl, by simpa using h⟩
  | succ k ih =>
    cases bs with
    | nil =>
      rw [leadingZeroBits] at h
      omega
    | cons b bs =>
      by_cases hb : b = 0
      · rw [leadingZeroBits, if_pos hb] at h
        obtain ⟨hbs, hr⟩ := ih (show 8 * k + r ≤ leadingZeroBits bs by omega)
        refine ⟨?_, hr⟩
        rw [hb, List.replicate_succ, List.cons_append, List.drop_succ_cons, ← hbs]
      · rw [leadingZeroBits, if_neg hb] at h
        omega

end HintScript.Work

namespace HintScript.Difficulty

theorem bits_eq (d : Difficulty) : d.bits = 8 * d.whole + d.rem := (Nat.div_add_mod d.bits 8).symm

theorem rem_lt (d : Difficulty) : d.rem < 8 := Nat.mod_lt _ (by decide)

theorem msbBound_eq (d : Difficulty) : d.msbBound = 2 ^ (8 - d.rem) := Nat.one_shiftLeft _

theorem msbBound_le {d : Difficulty} (h : d.rem ≠ 0) : d.msbBound ≤ 128 := by
  rw [msbBound_eq]
  exact Nat.pow_le_pow_right (by decide) (show 8 - d.rem ≤ 7 by omega)

theorem whole_add_le (d : Difficulty) : d.whole + (if d.rem = 0 then 0 else 1) ≤ digestSize := by
  have hle := d.le
  have hbits := d.bits_eq
  unfold digestSize
  split <;> omega

end HintScript.Difficulty

namespace HintScript.Work

open Number Script

theorem middle_cases {d : Difficulty} {w : Witness} {mid : Bytes} (h : w.middle d = .ok mid) :
    (d.rem = 0 ∧ w.msb = none ∧ mid = []) ∨
    (d.rem ≠ 0 ∧ ∃ v : Int, w.msb = some v ∧ 0 ≤ v ∧ v < d.msbBound ∧
      mid = [UInt8.ofNat v.toNat]) := by
  unfold Witness.middle at h
  split at h
  · rename_i hr
    cases hm : w.msb with
    | none =>
      rw [hm] at h
      cases h
      exact .inl ⟨hr, rfl, rfl⟩
    | some v =>
      rw [hm] at h
      cases h
  · rename_i hr
    cases hm : w.msb with
    | none =>
      rw [hm] at h
      cases h
    | some v =>
      rw [hm] at h
      simp only at h
      split at h
      · rename_i hv
        cases h
        exact .inr ⟨hr, v, rfl, hv.1, hv.2, rfl⟩
      · cases h

theorem middle_length {d : Difficulty} {w : Witness} {mid : Bytes} (h : w.middle d = .ok mid) :
    mid.length = if d.rem = 0 then 0 else 1 := by
  rcases middle_cases h with ⟨hr, -, rfl⟩ | ⟨hr, v, -, -, -, rfl⟩
  · rw [if_pos hr]
    rfl
  · rw [if_neg hr]
    rfl

theorem verify_toOption {h : Hasher} (hw : h.Wide) (state nonce : Bytes) (d : Difficulty)
    (w : Witness) :
    (verify h state nonce d w).toOption =
      (w.middle d).toOption.bind fun mid =>
        if List.replicate d.whole 0 ++ mid ++ w.suffix = h.digest (state ++ nonce)
        then some (h.digest state) else none := by
  -- the size of the suffix need not be checked where the whole digest is compared
  have hle := d.whole_add_le
  unfold verify checkWitness
  by_cases hsize : w.suffix.length = d.suffixSize
  · rw [if_neg (by simpa using hsize)]
    cases hm : w.middle d with
    | error e => rfl
    | ok mid =>
      by_cases he : List.replicate d.whole 0 ++ mid ++ w.suffix = h.digest (state ++ nonce)
      · simp only [bind, Except.bind, he, ne_eq, not_true_eq_false, if_false, if_true, Except.toOption,
          Option.bind_some]
        rfl
      · simp only [bind, Except.bind, he, ne_eq, not_false_eq_true, if_true, if_false, Except.toOption,
          Option.bind_some]
        rfl
  · rw [if_pos (by simpa using hsize)]
    cases hm : w.middle d with
    | error e => rfl
    | ok mid =>
      have hne : List.replicate d.whole 0 ++ mid ++ w.suffix ≠ h.digest (state ++ nonce) := by
        intro he
        have hlen := congrArg List.length he
        have hmid := middle_length hm
        rw [hw, List.length_append, List.length_append, List.length_replicate, hmid] at hlen
        unfold Difficulty.suffixSize at hsize
        omega
      simp only [Except.toOption, Option.bind_some, if_neg hne]
      rfl

theorem eq_digest_of_verify {h : Hasher} {state nonce next : Bytes} {d : Difficulty} {w : Witness}
    (hv : verify h state nonce d w = .ok next) : next = h.digest state := by
  unfold verify at hv
  split at hv
  · cases hv
    rfl
  · cases hv

theorem exists_middle_of_verify {h : Hasher} (hw : h.Wide) {state nonce next : Bytes}
    {d : Difficulty} {w : Witness} (hv : verify h state nonce d w = .ok next) :
    ∃ mid, w.middle d = .ok mid ∧
      List.replicate d.whole 0 ++ mid ++ w.suffix = h.digest (state ++ nonce) := by
  have ho := toOption_eq_some_iff.mpr hv
  rw [verify_toOption hw] at ho
  obtain ⟨mid, hmid, ho⟩ := Option.bind_eq_some_iff.mp ho
  split at ho
  · rename_i he
    exact ⟨mid, toOption_eq_some_iff.mp hmid, he⟩
  · cases ho

theorem le_leadingZeroBits_of_middle {d : Difficulty} {w : Witness} {mid digest : Bytes}
    (hm : w.middle d = .ok mid) (he : List.replicate d.whole 0 ++ mid ++ w.suffix = digest) :
    d.bits ≤ leadingZeroBits digest := by
  rw [← he, List.append_assoc, leadingZeroBits_replicate, d.bits_eq]
  rcases middle_cases hm with ⟨hr, -, rfl⟩ | ⟨hr, v, -, h0, hv, rfl⟩
  · omega
  · have hbound := Difficulty.msbBound_le hr
    have hlt : (UInt8.ofNat v.toNat).toNat < 2 ^ (8 - d.rem) := by
      rw [UInt8.toNat_ofNat_of_lt' (by unfold UInt8.size; omega)]
      rw [Difficulty.msbBound_eq] at hv
      omega
    rw [List.singleton_append]
    exact Nat.add_le_add_left ((le_leadingZeroBits_cons_iff d.rem_lt).mpr hlt) _

theorem verify_of_meets {h : Hasher} (hw : h.Wide) {state nonce : Bytes} {d : Difficulty}
    (hmeets : meets h state d nonce = true) :
    ∃ w, Witness.of h state nonce d = .ok w ∧ (w.msb.isSome = true ↔ d.rem ≠ 0) ∧
      verify h state nonce d w = .ok (h.digest state) := by
  have hbits := of_decide_eq_true hmeets
  have hlen := hw (state ++ nonce)
  have hle := d.whole_add_le
  rw [d.bits_eq] at hbits
  obtain ⟨hzeros, hrest⟩ := eq_replicate_of_le hbits
  by_cases hr : d.rem = 0
  · refine ⟨⟨_, none⟩, if_pos hr, by simp [hr], toOption_eq_some_iff.mp ?_⟩
    rw [verify_toOption hw]
    simp only [Witness.middle, if_pos hr, Except.toOption, Option.bind_some, List.append_nil]
    rw [if_pos hzeros.symm]
  · rw [if_neg hr] at hle
    cases hdrop : (h.digest (state ++ nonce)).drop d.whole with
    | nil =>
      have hshort := List.drop_eq_nil_iff.mp hdrop
      omega
    | cons b bs =>
      have hget : (h.digest (state ++ nonce))[d.whole]? = some b := by
        have hhead : ((h.digest (state ++ nonce)).drop d.whole)[0]? =
            (h.digest (state ++ nonce))[d.whole + 0]? := List.getElem?_drop
        rw [hdrop] at hhead
        exact hhead.symm
      have hdrop' : (h.digest (state ++ nonce)).drop (d.whole + 1) = bs := by
        rw [← List.drop_drop, hdrop]
        rfl
      rw [hdrop] at hzeros hrest
      have hb := (le_leadingZeroBits_cons_iff d.rem_lt).mp hrest
      refine ⟨⟨bs, some b.toNat⟩, ?_, by simp [hr], toOption_eq_some_iff.mp ?_⟩
      · simp only [Witness.of, if_neg hr, hget, hdrop']
      · have hbound : (0 : Int) ≤ b.toNat ∧ (b.toNat : Int) < d.msbBound := by
          rw [Difficulty.msbBound_eq]
          omega
        have hbyte : UInt8.ofNat (Int.toNat (b.toNat : Int)) = b := by
          rw [Int.toNat_natCast, UInt8.ofNat_toNat]
        rw [verify_toOption hw]
        simp only [Witness.middle, if_neg hr, if_pos hbound, hbyte, Except.toOption,
          Option.bind_some]
        rw [List.append_assoc, List.singleton_append, if_pos hzeros.symm]

/-- The number that stands for the leading byte, where there is one. -/
def readMsb : Option Bytes → Option (Option Int)
  | none => some none
  | some x => (decode x sizeLimit).toOption.map some

theorem eq_map_of_readMsb {item : Option Bytes} {msb : Option Int}
    (h : readMsb item = some msb) : item = msb.map encode := by
  cases item with
  | none =>
    cases h
    rfl
  | some x =>
    obtain ⟨v, hv, rfl⟩ := Option.map_eq_some_iff.mp h
    rw [toOption_eq_some_iff, decode_eq_ok_iff] at hv
    rw [hv.2]
    rfl

theorem length_le_of_readMsb {item : Option Bytes} {msb : Option Int}
    (h : readMsb item = some msb) : ∀ x ∈ item.toList, x.length ≤ 4 := by
  cases item with
  | none => simp
  | some x =>
    obtain ⟨v, hv, -⟩ := Option.map_eq_some_iff.mp h
    have hlen := (decode_eq_ok_iff.mp (toOption_eq_some_iff.mp hv)).1
    unfold sizeLimit at hlen
    simp only [Option.toList_some, List.mem_singleton, forall_eq]
    omega

theorem eq_of_readMsb {msb v : Option Int} (h : readMsb (msb.map encode) = some v) : v = msb := by
  have he := eq_map_of_readMsb h
  cases msb <;> cases v <;> simp at he ⊢
  exact (encode_injective he).symm

theorem readMsb_of_verify {h : Hasher} (hw : h.Wide) {state nonce next : Bytes} {d : Difficulty}
    {w : Witness} (hv : verify h state nonce d w = .ok next) :
    readMsb (w.msb.map encode) = some w.msb := by
  obtain ⟨mid, hmid, -⟩ := exists_middle_of_verify hw hv
  rcases middle_cases hmid with ⟨-, hm, -⟩ | ⟨hr, v, hm, h0, hv, -⟩
  · rw [hm]
    rfl
  · have hbound := Difficulty.msbBound_le hr
    simp only [hm, readMsb, Option.map_some]
    rw [decode_encode_small (by omega)]
    rfl

theorem eq_of_verify {h : Hasher} (hw : h.Wide) {state nonce next next' : Bytes} {d : Difficulty}
    {w w' : Witness} (hv : verify h state nonce d w = .ok next)
    (hv' : verify h state nonce d w' = .ok next') : w = w' := by
  obtain ⟨mid, hmid, he⟩ := exists_middle_of_verify hw hv
  obtain ⟨mid', hmid', he'⟩ := exists_middle_of_verify hw hv'
  have hlen : mid.length = mid'.length := (middle_length hmid).trans (middle_length hmid').symm
  have hjoin := he.trans he'.symm
  rw [List.append_assoc, List.append_assoc, List.append_cancel_left_eq] at hjoin
  obtain ⟨rfl, hsuffix⟩ := List.append_inj hjoin hlen
  have hmsb : w.msb = w'.msb := by
    rcases middle_cases hmid with ⟨hr, hm, rfl⟩ | ⟨hr, v, hm, h0, hlt, rfl⟩
    · rcases middle_cases hmid' with ⟨-, hm', -⟩ | ⟨hr', -⟩
      · rw [hm, hm']
      · exact absurd hr hr'
    · rcases middle_cases hmid' with ⟨hr', -⟩ | ⟨-, v', hm', h0', hlt', hbyte⟩
      · exact absurd hr' hr
      · have hbound := Difficulty.msbBound_le hr
        have hnat := congrArg UInt8.toNat (List.singleton_inj.mp hbyte)
        rw [UInt8.toNat_ofNat_of_lt' (by unfold UInt8.size; omega),
          UInt8.toNat_ofNat_of_lt' (by unfold UInt8.size; omega)] at hnat
        rw [hm, hm']
        exact congrArg some (by omega)
  cases w
  cases w'
  exact congrArg₂ Witness.mk hsuffix hmsb

theorem exists_witness {h : Hasher} (hw : h.Wide) (state nonce : Bytes) (d : Difficulty) :
    ∃ w, Witness.of h state nonce d = .ok w := by
  unfold Witness.of
  by_cases hr : d.rem = 0
  · simp [hr]
  · have hle := d.whole_add_le
    have hlt : d.whole < (h.digest (state ++ nonce)).length := by
      rw [if_neg hr] at hle
      rw [hw]
      omega
    simp [hr, hlt]

theorem verify_eq_ok_iff {h : Hasher} (hw : h.Wide) {state nonce next : Bytes} {d : Difficulty}
    {w : Witness} :
    verify h state nonce d w = .ok next ↔
      next = h.digest state ∧ meets h state d nonce = true ∧
        Witness.of h state nonce d = .ok w := by
  constructor
  · intro hv
    obtain ⟨mid, hmid, he⟩ := exists_middle_of_verify hw hv
    have hmeets : meets h state d nonce = true :=
      decide_eq_true (le_leadingZeroBits_of_middle hmid he)
    obtain ⟨made, hmade, -, hv'⟩ := verify_of_meets hw hmeets
    rw [eq_of_verify hw hv hv']
    exact ⟨eq_digest_of_verify hv, hmeets, hmade⟩
  · intro hall
    obtain ⟨rfl, hmeets, hof⟩ := hall
    obtain ⟨made, hmade, -, hv⟩ := verify_of_meets hw hmeets
    rw [hof] at hmade
    cases hmade
    exact hv

/-- The suffix has its size and bits of the byte before it are required, but the number given for
that byte has too many digits to be named in a refusal. -/
def Witness.Unwritable (w : Witness) (d : Difficulty) : Prop :=
  w.suffix.length = d.suffixSize ∧ d.rem ≠ 0 ∧ ∃ m, w.msb = some m ∧ ¬ Writable m

/-- An unwritable number is out of range, and the range is all that is left to check of it. -/
theorem checkWitness_of_unwritable {h : Hasher} {state nonce : Bytes} {d : Difficulty} {w : Witness}
    {m : Int} (hs : w.suffix.length = d.suffixSize) (hr : d.rem ≠ 0) (hm : w.msb = some m)
    (hu : ¬ Writable m) :
    checkWitness h state nonce d w = .error (.msbTooLarge m d.msbBound) := by
  have hbound := Difficulty.msbBound_le hr
  have hrange : ¬ (0 ≤ m ∧ m < d.msbBound) := fun hrange => hu (writable_of_lt (by omega))
  have hmid : w.middle d = .error (.msbTooLarge m d.msbBound) := by
    simp only [Witness.middle, hr, hm, hrange, if_false]
  unfold checkWitness
  simp only [hs, hmid, ne_eq, not_true_eq_false, if_false]
  rfl

theorem msb_of_middle {d : Difficulty} {w : Witness} {m : Int} {bound : Nat}
    (h : w.middle d = .error (.msbTooLarge m bound)) : d.rem ≠ 0 ∧ w.msb = some m := by
  unfold Witness.middle at h
  split at h
  · split at h <;> cases h
  · rename_i hr
    split at h
    · cases h
    · rename_i v hv
      split at h <;> cases h
      exact ⟨hr, hv⟩

theorem msb_of_checkWitness {h : Hasher} {state nonce : Bytes} {d : Difficulty} {w : Witness}
    {m : Int} {bound : Nat} (hc : checkWitness h state nonce d w = .error (.msbTooLarge m bound)) :
    w.suffix.length = d.suffixSize ∧ d.rem ≠ 0 ∧ w.msb = some m := by
  unfold checkWitness at hc
  by_cases hs : w.suffix.length = d.suffixSize
  · simp only [hs, ne_eq, not_true_eq_false, if_false] at hc
    cases hm : w.middle d with
    | error cause =>
      rw [hm] at hc
      cases hc
      exact ⟨hs, msb_of_middle hm⟩
    | ok mid =>
      simp only [hm, bind, Except.bind] at hc
      split at hc <;> cases hc
  · simp only [hs, ne_eq, not_false_eq_true, if_true] at hc
    cases hc

/-- Work that is not accepted is refused, unless the refusal cannot be worded. -/
theorem verify_of_checkWitness {h : Hasher} {state nonce : Bytes} {d : Difficulty} {w : Witness}
    {cause : WorkError} (hc : checkWitness h state nonce d w = .error cause) :
    (¬ w.Unwritable d ∧ verify h state nonce d w = .error (.rejected (.work cause))) ∨
      w.Unwritable d ∧ verify h state nonce d w = .error .textTooLong := by
  have hv : verify h state nonce d w = .error (Rejection.work cause).raised := by
    simp only [verify, hc]
  by_cases hu : w.Unwritable d
  · obtain ⟨hs, hr, m, hm, hm'⟩ := hu
    cases hc.symm.trans (checkWitness_of_unwritable hs hr hm hm')
    exact .inr ⟨⟨hs, hr, m, hm, hm'⟩, hv.trans (congrArg _ (Rejection.raised_of_not_writable rfl hm'))⟩
  · refine .inl ⟨hu, hv.trans (congrArg _ (Rejection.raised_of_writable ?_))⟩
    intro n hn
    cases cause with
    | msbTooLarge m bound =>
      cases hn
      obtain ⟨hs, hr, hm⟩ := msb_of_checkWitness hc
      by_contra hm'
      exact hu ⟨hs, hr, _, hm, hm'⟩
    | _ => cases hn

theorem verify_cases (h : Hasher) (state nonce : Bytes) (d : Difficulty) (w : Witness) :
    verify h state nonce d w = .ok (h.digest state) ∨
      (¬ w.Unwritable d ∧ ∃ cause, verify h state nonce d w = .error (.rejected (.work cause))) ∨
      w.Unwritable d ∧ verify h state nonce d w = .error .textTooLong := by
  cases hc : checkWitness h state nonce d w with
  | ok _ => exact .inl (by simp only [verify, hc])
  | error cause =>
    rcases verify_of_checkWitness hc with ⟨hu, hv⟩ | ⟨hu, hv⟩
    · exact .inr (.inl ⟨hu, cause, hv⟩)
    · exact .inr (.inr ⟨hu, hv⟩)

theorem verify_eq_textTooLong_iff {h : Hasher} {state nonce : Bytes} {d : Difficulty}
    {w : Witness} : verify h state nonce d w = .error .textTooLong ↔ w.Unwritable d := by
  constructor
  · intro hv
    rcases verify_cases h state nonce d w with hok | ⟨-, cause, hno⟩ | ⟨hu, -⟩
    · cases hv.symm.trans hok
    · cases hv.symm.trans hno
    · exact hu
  · rintro ⟨hs, hr, m, hm, hu⟩
    simp only [verify, checkWitness_of_unwritable hs hr hm hu]
    exact congrArg _ (Rejection.raised_of_not_writable rfl hu)

/-- A witness is made from every digest. It is the only one that is accepted, and it is accepted
exactly if the digest has the zero bits required. Any other is refused, except that no refusal can
name a number of too many digits: such a number raises an error of another kind. -/
theorem verify_decides {h : Hasher} (hw : h.Wide) (state nonce : Bytes) (d : Difficulty)
    (w : Witness) :
    ∃ made, Witness.of h state nonce d = .ok made ∧
      (∀ next, verify h state nonce d w = .ok next ↔
        next = h.digest state ∧ d.bits ≤ leadingZeroBits (h.digest (state ++ nonce)) ∧
          w = made) ∧
      ((∃ cause, verify h state nonce d w = .error (.rejected (.work cause))) ↔
        ¬ (d.bits ≤ leadingZeroBits (h.digest (state ++ nonce)) ∧ w = made) ∧
          ¬ w.Unwritable d) ∧
      (verify h state nonce d w = .error .textTooLong ↔ w.Unwritable d) := by
  obtain ⟨made, hmade⟩ := exists_witness hw state nonce d
  have hiff (next : Bytes) : verify h state nonce d w = .ok next ↔
      next = h.digest state ∧ d.bits ≤ leadingZeroBits (h.digest (state ++ nonce)) ∧
        w = made := by
    simp [verify_eq_ok_iff hw, hmade, meets, eq_comm]
  refine ⟨made, hmade, hiff, ?_, verify_eq_textTooLong_iff⟩
  constructor
  · rintro ⟨cause, hno⟩
    refine ⟨fun hgood => ?_, fun hu => ?_⟩
    · cases hno.symm.trans ((hiff _).mpr ⟨rfl, hgood⟩)
    · cases hno.symm.trans (verify_eq_textTooLong_iff.mpr hu)
  · rintro ⟨hbad, hu⟩
    rcases verify_cases h state nonce d w with hok | ⟨-, hno⟩ | ⟨hu', -⟩
    · exact absurd ((hiff _).mp hok).2 hbad
    · exact hno
    · exact absurd hu' hu

theorem verify_decides_allZero :
    let h : Hasher := ⟨.sha256, fun _ => List.replicate 32 0⟩
    let d : Difficulty := ⟨256, by decide⟩
    verify h [5] [7] d ⟨[], none⟩ = .ok (List.replicate 32 0) ∧
      ∃ cause, verify h [5] [7] d ⟨[], some 0⟩ = .error (.rejected (.work cause)) := by
  intro h d
  have hw : h.Wide := fun _ => by simp [h, digestSize]
  obtain ⟨made, hmade, haccepts, -⟩ := verify_decides hw [5] [7] d ⟨[], none⟩
  obtain ⟨made', hmade', -, hrefuses, -⟩ := verify_decides hw [5] [7] d ⟨[], some 0⟩
  have hof : Witness.of h [5] [7] d = .ok ⟨[], none⟩ := by decide
  have hzeros : d.bits ≤ leadingZeroBits (h.digest ([5] ++ [7])) := by decide
  cases hof.symm.trans hmade
  cases hof.symm.trans hmade'
  refine ⟨(haccepts _).mpr ⟨rfl, hzeros, rfl⟩, hrefuses.mpr ⟨by simp, ?_⟩⟩
  rintro ⟨-, hr, -⟩
  exact hr (by decide)

/-- Five bits and a number of 4301 digits: nobody is told that the work is refused. -/
theorem verify_longMsb_raises :
    let d : Difficulty := ⟨5, by decide⟩
    let w : Witness := ⟨List.replicate 31 0, some textBound⟩
    verify .sha256 (List.replicate 32 0) [] d w = .error .textTooLong ∧
      ¬ (∃ next, verify .sha256 (List.replicate 32 0) [] d w = .ok next) ∧
      ¬ ∃ cause, verify .sha256 (List.replicate 32 0) [] d w = .error (.rejected (.work cause)) := by
  intro d w
  have hu : w.Unwritable d :=
    ⟨by decide, by decide, _, rfl, not_writable_of_le (Nat.le_refl textBound)⟩
  have hraises : verify .sha256 (List.replicate 32 0) [] d w = .error .textTooLong :=
    verify_eq_textTooLong_iff.mpr hu
  refine ⟨hraises, ?_, ?_⟩
  · rintro ⟨next, hok⟩
    cases hraises.symm.trans hok
  · rintro ⟨cause, hno⟩
    cases hraises.symm.trans hno

theorem length_suffix_le_of_verify {h : Hasher} (hw : h.Wide) {state nonce next : Bytes}
    {d : Difficulty} {w : Witness} (hv : verify h state nonce d w = .ok next) :
    w.suffix.length ≤ digestSize := by
  obtain ⟨mid, -, he⟩ := exists_middle_of_verify hw hv
  rw [← hw (state ++ nonce), ← he, List.length_append]
  omega

section

variable {H : Bytes → Bytes} {m l : List Bytes}

theorem msbItem_eq {n : Nat} (hn : n < 128) :
    (if encode n = [] then [0] else encode n) = [UInt8.ofNat n] := by
  by_cases hz : n = 0
  · rw [hz]
    rfl
  · rw [encode_byte (by omega) hn, if_neg (by simp)]

theorem exec_msbScript {d : Difficulty} (hd : d.rem ≠ 0) {x t : Bytes}
    (hm : m.length < 2 ^ 30) :
    exec (shaEnv H) (msbScript d) ⟨⟨t :: (m ++ [x]), l⟩, []⟩ =
      (decode x sizeLimit).toOption.bind fun v =>
        (Witness.middle ⟨t, some v⟩ d).toOption.bind fun mid =>
          if mid.length + t.length ≤ 520 then some ⟨⟨(mid ++ t) :: m, l⟩, []⟩ else none := by
  have hbound := Difficulty.msbBound_le hd
  have hscript : msbScript d = fetch ++ ops [.dup] ++ num 0 ++ num d.msbBound ++
      ops [.within, .verify] ++ ops [.size, .not] ++
      (.op .ifTrue :: ((ops [.drop] ++ bytes [0]) ++ [.op .endIf])) ++ ops [.swap, .cat] := rfl
  rw [hscript]
  simp only [exec_append]
  rw [← List.cons_append, exec_fetch (by rw [List.length_cons]; omega), Option.bind_some, exec_dup,
    exec_ops_nil, Option.bind_some, exec_num (by decide), Option.bind_some, exec_num (by omega),
    Option.bind_some]
  cases hx : decode x sizeLimit with
  | error e =>
    rw [exec_within_none hx (by decide) (by omega)]
    rfl
  | ok v =>
    obtain ⟨-, rfl⟩ := decode_eq_ok_iff.mp hx
    rw [exec_within hx (by decide) (by omega), exec_verify, isTrue_ofBool]
    simp only [Except.toOption, Option.bind_some, Witness.middle, if_neg hd]
    by_cases hv : 0 ≤ v ∧ v < d.msbBound
    · obtain ⟨n, rfl⟩ := Int.eq_ofNat_of_zero_le hv.1
      have hlen : (encode (n : Int)).length ≤ 4 := by
        rw [length_encode]
        exact width_le_four (by omega)
      have hempty : ((encode (n : Int)).length : Int) = 0 ↔ encode (n : Int) = [] :=
        ⟨fun h0 => List.length_eq_zero_iff.mp (by omega), fun h0 => by rw [h0]; rfl⟩
      rw [if_pos (decide_eq_true hv), if_pos hv, exec_ops_nil, Option.bind_some, exec_size,
        exec_not (by omega), exec_ops_nil, Option.bind_some, decide_eq_decide.mpr hempty,
        Shifts.exec_only (.line (s := ops [.drop] ++ bytes [0]) rfl), exec_append, exec_drop,
        exec_ops_nil, Option.bind_some, exec_bytes (by decide)]
      have hitem : (if decide (encode (n : Int) = []) = true
          then some (⟨⟨[0] :: t :: m, l⟩, []⟩ : Frame)
          else some ⟨⟨encode (n : Int) :: t :: m, l⟩, []⟩) =
          some ⟨⟨[UInt8.ofNat n] :: t :: m, l⟩, []⟩ := by
        rw [← msbItem_eq (n := n) (by omega)]
        by_cases he : encode (n : Int) = []
        · rw [if_pos (decide_eq_true he), if_pos he]
        · rw [if_neg (by rwa [decide_eq_true_iff]), if_neg he]
      rw [hitem, Option.bind_some, exec_swap, exec_cat, exec_ops_nil]
      rfl
    · rw [if_neg (by rwa [decide_eq_true_iff]), if_neg hv]
      rfl

theorem exec_zeros {d : Difficulty} {t digest s : Bytes} (hd : digest.length = digestSize) :
    exec (shaEnv H) ((if d.whole = 0 then [] else zerosScript d) ++ ops [.equalVerify, .fromAlt])
        ⟨⟨t :: digest :: m, s :: l⟩, []⟩ =
      if List.replicate d.whole 0 ++ t = digest then some ⟨⟨s :: m, l⟩, []⟩ else none := by
  have hzeros : (List.replicate d.whole (0 : UInt8)).length ≤ 520 := by
    have hwhole := d.whole_add_le
    unfold digestSize at hwhole
    rw [List.length_replicate]
    omega
  rw [exec_append]
  by_cases hz : d.whole = 0
  · rw [if_pos hz, hz, exec_nil, Option.bind_some, exec_equalVerify, exec_fromAlt, exec_ops_nil]
    rfl
  · rw [if_neg hz, zerosScript, exec_append, exec_bytes hzeros, Option.bind_some, exec_swap, exec_cat,
      List.length_replicate]
    by_cases he : List.replicate d.whole 0 ++ t = digest
    · have hlen := congrArg List.length he
      rw [List.length_append, List.length_replicate, hd, digestSize] at hlen
      rw [if_pos (by omega), if_pos he, exec_ops_nil, Option.bind_some, exec_equalVerify, if_pos he,
        exec_fromAlt, exec_ops_nil]
    · rw [if_neg he]
      split
      · rw [exec_ops_nil, Option.bind_some, exec_equalVerify, if_neg he]
      · rfl

theorem exec_compare {d : Difficulty} {t digest s : Bytes} {msb : Option Bytes}
    (hmsb : msb.isSome = true ↔ d.rem ≠ 0) (hd : digest.length = digestSize)
    (hm : m.length < 2 ^ 29) :
    exec (shaEnv H) ((if d.rem = 0 then [] else msbScript d) ++
        ((if d.whole = 0 then [] else zerosScript d) ++ ops [.equalVerify, .fromAlt]))
        ⟨⟨t :: digest :: (m ++ msb.toList), s :: l⟩, []⟩ =
      (readMsb msb).bind fun v => (Witness.middle ⟨t, v⟩ d).toOption.bind fun mid =>
        if List.replicate d.whole 0 ++ mid ++ t = digest
        then some ⟨⟨s :: m, l⟩, []⟩ else none := by
  rw [exec_append]
  by_cases hr : d.rem = 0
  · obtain rfl : msb = none := by
      cases msb with
      | none => rfl
      | some x => exact absurd hr (hmsb.mp rfl)
    rw [if_pos hr, exec_nil, Option.bind_some, Option.toList_none, List.append_nil, exec_zeros hd]
    simp [readMsb, Witness.middle, hr, Except.toOption]
  · obtain ⟨x, rfl⟩ := Option.isSome_iff_exists.mp (hmsb.mpr hr)
    have hmsbExec := exec_msbScript (H := H) (m := digest :: m) (l := s :: l) (x := x) (t := t) hr
      (by rw [List.length_cons]; omega)
    rw [List.cons_append] at hmsbExec
    rw [if_neg hr, Option.toList_some, hmsbExec, readMsb]
    cases decode x sizeLimit with
    | error e => rfl
    | ok v =>
      cases hmid : Witness.middle ⟨t, some v⟩ d with
      | error e => simp [Except.toOption, hmid]
      | ok mid =>
        simp only [Except.toOption, Option.map_some, Option.bind_some, hmid]
        by_cases he : List.replicate d.whole 0 ++ mid ++ t = digest
        · have hlen := congrArg List.length he
          rw [List.length_append, List.length_append, hd, digestSize] at hlen
          rw [if_pos (by omega), Option.bind_some, exec_zeros hd, ← List.append_assoc]
        · rw [if_neg he]
          split
          · rw [Option.bind_some, exec_zeros hd, ← List.append_assoc, if_neg he]
          · rfl

theorem exec_script (hH : ∀ data, (H data).length = digestSize) (d : Difficulty)
    {s nonce suffix : Bytes} {msb : Option Bytes} (hs : s.length = digestSize)
    (hmsb : msb.isSome = true ↔ d.rem ≠ 0) (hm : m.length < 2 ^ 29) :
    exec (shaEnv H) (script ⟨.sha256, H⟩ d)
        ⟨⟨s :: (m ++ (nonce :: suffix :: msb.toList).reverse), l⟩, []⟩ =
      if nonce.length ≤ 488
      then (readMsb msb).bind fun v =>
        (verify ⟨.sha256, H⟩ s nonce d ⟨suffix, v⟩).toOption.map fun s' => ⟨⟨s' :: m, l⟩, []⟩
      else none := by
  have hscript : script ⟨.sha256, H⟩ d = ops [.dup, .sha256, .toAlt] ++ fetch ++ ops [.cat] ++
      ops [.sha256] ++ fetch ++ ((if d.rem = 0 then [] else msbScript d) ++
        ((if d.whole = 0 then [] else zerosScript d) ++ ops [.equalVerify, .fromAlt])) := by
    unfold script
    simp only [List.append_assoc]
    rfl
  have hrev : (nonce :: suffix :: msb.toList).reverse = msb.toList ++ [suffix] ++ [nonce] := by
    cases msb <;> rfl
  have hlen : msb.toList.length ≤ 1 := by
    cases msb <;> simp
  rw [hscript, hrev]
  rw [exec_append, exec_append, exec_append, exec_append, exec_append, exec_dup, exec_sha256,
    exec_toAlt, exec_ops_nil, Option.bind_some, ← List.append_assoc, ← List.cons_append,
    exec_fetch (by simp; omega), Option.bind_some, exec_cat, hs, digestSize]
  by_cases hn : nonce.length ≤ 488
  · rw [if_pos (by omega), if_pos hn, exec_ops_nil, Option.bind_some, exec_sha256, exec_ops_nil,
      Option.bind_some, ← List.append_assoc, ← List.cons_append, exec_fetch (by simp; omega),
      Option.bind_some, exec_compare hmsb (hH _) hm]
    congr 1
    funext v
    rw [verify_toOption (h := ⟨.sha256, H⟩) hH, Option.map_bind]
    congr 1
    funext mid
    simp only [Function.comp_apply]
    split <;> rfl
  · rw [if_neg (by omega), if_neg hn]
    rfl

theorem msbScript_shifts (d : Difficulty) : Shifts (msbScript d) (-1) 0 3 := by
  have hscript : msbScript d = fetch ++ (ops [.dup] ++ num 0 ++ num d.msbBound ++
      ops [.within, .verify] ++ ops [.size, .not]) ++
      (.op .ifTrue :: ((ops [.drop] ++ bytes [0]) ++ [.op .endIf])) ++ ops [.swap, .cat] := rfl
  rw [hscript]
  exact (((fetch_shifts.append (.line (s := ops [.dup] ++ num 0 ++ num d.msbBound ++
    ops [.within, .verify] ++ ops [.size, .not]) rfl)).append
    (.only (.inl rfl) (.line (s := ops [.drop] ++ bytes [0]) rfl))).append
    (.line (s := ops [.swap, .cat]) rfl)).of_eq rfl rfl (by decide)

theorem script_shifts (H : Bytes → Bytes) (d : Difficulty) :
    Shifts (script ⟨.sha256, H⟩ d) (-2 - if d.rem = 0 then 0 else 1) 0 3 := by
  have hmsb : Shifts (if d.rem = 0 then [] else msbScript d)
      (if d.rem = 0 then 0 else -1) 0 3 := by
    split
    · exact Shifts.nil.of_eq rfl rfl (by decide)
    · exact msbScript_shifts d
  have hzeros : Shifts (if d.whole = 0 then [] else zerosScript d) 0 0 1 := by
    split
    · exact Shifts.nil.of_eq rfl rfl (by decide)
    · exact .line rfl
  exact (((((((((Shifts.line (s := ops [.dup]) rfl).append (.line (s := ops [.sha256]) rfl)).append
    (.line (s := ops [.toAlt]) rfl)).append fetch_shifts).append
    (.line (s := ops [.cat]) rfl)).append (.line (s := ops [.sha256]) rfl)).append
    fetch_shifts).append hmsb).append hzeros |>.append
    (.line (s := ops [.equalVerify, .fromAlt]) rfl)).of_eq
    (by split <;> rfl) rfl (by split <;> decide)

end

/-- A witness with this suffix, and with the leading byte that the item encodes, is accepted. -/
def Witnessed (h : Hasher) (state nonce : Bytes) (d : Difficulty) (suffix : Bytes)
    (msb : Option Bytes) : Prop :=
  ∃ w : Witness, w.suffix = suffix ∧ w.msb.map encode = msb ∧
    ∃ next, verify h state nonce d w = .ok next

theorem witnessed_iff {h : Hasher} (hw : h.Wide) {state nonce suffix : Bytes} {d : Difficulty}
    {msb : Option Bytes} : Witnessed h state nonce d suffix msb ↔
      ∃ v, readMsb msb = some v ∧ ∃ next, verify h state nonce d ⟨suffix, v⟩ = .ok next := by
  constructor
  · rintro ⟨⟨suffix, v⟩, rfl, rfl, next, hv⟩
    exact ⟨v, readMsb_of_verify hw hv, next, hv⟩
  · rintro ⟨v, hr, next, hv⟩
    exact ⟨⟨suffix, v⟩, rfl, (eq_map_of_readMsb hr).symm, next, hv⟩

/-- The script advances the state of a machine where a witness is accepted for the items, and stops
it otherwise. -/
theorem script_checks_work {h : Hasher} (ho : h.opcode = .sha256) (hw : h.Wide) (d : Difficulty)
    {state nonce suffix : Bytes} {msb : Option Bytes} (hs : state.length = digestSize)
    (hn : nonce.length ≤ 488) (hmsb : msb.isSome = true ↔ d.rem ≠ 0) (rest alt : List Bytes)
    {m : Machine} (ha : m.active = true)
    (hstack : m.stack = ⟨state :: (rest ++ (nonce :: suffix :: msb.toList).reverse), alt⟩)
    (hsize : m.stack.size ≤ 1000) :
    (Witnessed h state nonce d suffix msb →
      m.Attains ⟨h, {}⟩ (script h d) 3 ⟨h.digest state :: rest, alt⟩) ∧
    (¬ Witnessed h state nonce d suffix msb → m.Aborts ⟨h, {}⟩ (script h d)) := by
  obtain ⟨o, H⟩ := h
  obtain rfl : o = .sha256 := ho
  have hrest : rest.length < 2 ^ 29 := by
    rw [hstack] at hsize
    simp only [Stacks.size, List.length_cons, List.length_append] at hsize
    omega
  have hrun := (script_shifts H d).attains_or_aborts (H := H) ha
  rw [hstack, exec_script hw d hs hmsb hrest, if_pos hn] at hrun
  rw [witnessed_iff hw]
  constructor
  · rintro ⟨v, hr, next, hv⟩
    rw [hr, Option.bind_some, hv] at hrun
    rw [← eq_digest_of_verify hv]
    exact hrun
  · intro hno
    cases hr : readMsb msb with
    | none =>
      rw [hr] at hrun
      exact hrun
    | some v =>
      cases hv : verify ⟨.sha256, H⟩ state nonce d ⟨suffix, v⟩ with
      | ok next => exact absurd ⟨v, hr, next, hv⟩ hno
      | error e =>
        rw [hr, Option.bind_some, hv] at hrun
        exact hrun

theorem script_checks_work_zeroMsb :
    let digest : Bytes := [0, 0] ++ List.replicate 30 7
    let h : Hasher := ⟨.sha256, fun _ => digest⟩
    let d : Difficulty := ⟨12, by decide⟩
    let m : Machine :=
      { stack := ⟨digest :: ([[42]] ++ [[7], List.replicate 30 7, []].reverse), [[9]]⟩ }
    m.Leaves ⟨h, {}⟩ (script h d) ⟨[digest, [42]], [[9]]⟩ := by
  intro digest h d m
  have hv : verify h digest [7] d ⟨List.replicate 30 7, some 0⟩ = .ok digest := by decide
  have hnonce : ([7] : Bytes).length ≤ 488 := by decide
  have hmsb : (some ([] : Bytes)).isSome = true ↔ d.rem ≠ 0 := iff_of_true rfl (by decide)
  have hrun := (script_checks_work (h := h) (m := m) rfl (fun _ => rfl) d
    (show digest.length = digestSize from rfl) hnonce hmsb [[42]] [[9]] rfl rfl (by decide)).1
    ⟨_, rfl, rfl, _, hv⟩
  exact hrun.leaves (by decide)

end HintScript.Work
