import HintScript.Extraction
import HintScript.Proofs.Shift

set_option autoImplicit false

namespace HintScript

open Number Script

namespace Bytes

theorem ofNatLE_extend {j n : Nat} (k : Nat) (h : n < 256 ^ j) :
    ofNatLE (j + k) n = ofNatLE j n ++ List.replicate k 0 := by
  rw [ofNatLE_append, Nat.div_eq_of_lt h, ofNatLE_zero]

end Bytes

namespace Word

def padScript (k : Nat) (zeros : Bytes) : Script :=
  ops [.size] ++ num k ++ ops [.less] ++
    (.op .ifTrue :: ((bytes zeros ++ ops [.cat]) ++ [.op .endIf]))

def shortScript : Script :=
  ops [.dup, .rot, .equal, .toAlt] ++ padScript 2 [0, 0] ++ padScript 3 [0] ++ ops [.fromAlt] ++
    (.op .ifTrue :: (bytes [0] ++ .op .orElse :: (bytes [0x80] ++ [.op .endIf]))) ++ ops [.cat]

def numberScript : Script :=
  ops [.dup, .abs, .dup, .toAlt, .size] ++ num size ++ ops [.less] ++
    (.op .ifTrue :: (shortScript ++ .op .orElse :: (ops [.drop] ++ [.op .endIf])))

def zeroScript : Script := ops [.drop] ++ bytes [] ++ ops [.toAlt] ++ bytes negativeZero

theorem script_eq : script =
    ops [.dup] ++ bytes negativeZeroUnit ++ ops [.equal] ++
      (.op .ifTrue :: (zeroScript ++ .op .orElse :: (numberScript ++ [.op .endIf]))) := rfl

theorem padScript_shifts (k : Nat) (zeros : Bytes) : Shifts (padScript k zeros) 0 0 2 :=
  ((((Shifts.line (s := ops [.size]) rfl).append (.line (s := num k) rfl)).append
    (.line (s := ops [.less]) rfl)).append
    (.only (.inl rfl) (.line (s := bytes zeros ++ ops [.cat]) rfl))).of_eq rfl rfl (by decide)

theorem shortScript_shifts : Shifts shortScript (-1) 0 2 :=
  ((((((Shifts.line (s := ops [.dup, .rot, .equal, .toAlt]) rfl).append
    (padScript_shifts 2 [0, 0])).append (padScript_shifts 3 [0])).append
    (.line (s := ops [.fromAlt]) rfl)).append
    (.either (.inl rfl) (.line (s := bytes [0]) rfl) (.line (s := bytes [0x80]) rfl))).append
    (.line (s := ops [.cat]) rfl)).of_eq rfl rfl (by decide)

theorem numberScript_shifts : Shifts numberScript 0 1 4 :=
  ((((Shifts.line (s := ops [.dup, .abs, .dup, .toAlt, .size]) rfl).append
    (.line (s := num size) rfl)).append (.line (s := ops [.less]) rfl)).append
    (.either (.inl rfl) shortScript_shifts (.line (s := ops [.drop]) rfl))).of_eq
    rfl rfl (by decide)

theorem zeroScript_shifts : Shifts zeroScript 0 1 1 := .line rfl

theorem script_shifts : Shifts script 0 1 4 := by
  rw [script_eq]
  exact ((((Shifts.line (s := ops [.dup]) rfl).append
    (.line (s := bytes negativeZeroUnit) rfl)).append (.line (s := ops [.equal]) rfl)).append
    (.either (.inl rfl) zeroScript_shifts numberScript_shifts)).of_eq rfl rfl (by decide)

section

variable {H : Bytes → Bytes} {m l : List Bytes}

theorem exec_padScript {k : Nat} {zeros x : Bytes} (hk : k < 2 ^ 31)
    (hx : x.length + zeros.length ≤ 520) :
    exec (shaEnv H) (padScript k zeros) ⟨⟨x :: m, l⟩, []⟩ =
      some ⟨⟨(if x.length < k then x ++ zeros else x) :: m, l⟩, []⟩ := by
  unfold padScript
  simp (disch := omega) only [exec_append, exec_size, exec_num, exec_less, exec_ops_nil,
    Option.bind_some]
  rw [Shifts.exec_only (.line (s := bytes zeros ++ ops [.cat]) rfl)]
  simp (disch := omega) only [exec_append, exec_bytes, exec_cat, if_pos hx, exec_ops_nil,
    Option.bind_some, Int.ofNat_lt, decide_eq_true_eq]
  split <;> rfl

theorem exec_shortScript {u x : Bytes} (hx : x.length ≤ 3) :
    exec (shaEnv H) shortScript ⟨⟨x :: u :: m, l⟩, []⟩ =
      some ⟨⟨(x ++ List.replicate (3 - x.length) 0 ++ [if u = x then 0 else 0x80]) :: m, l⟩,
        []⟩ := by
  have hlen (y zeros : Bytes) (k : Nat) (hy : y.length + zeros.length ≤ 5) :
      (if y.length < k then y ++ zeros else y).length ≤ 5 := by
    split
    · simpa using hy
    · omega
  have hpad : (if (if x.length < 2 then x ++ [0, 0] else x).length < 3
      then (if x.length < 2 then x ++ [0, 0] else x) ++ [0]
      else if x.length < 2 then x ++ [0, 0] else x) = x ++ List.replicate (3 - x.length) 0 := by
    rcases (by omega : x.length = 0 ∨ x.length = 1 ∨ x.length = 2 ∨ x.length = 3) with
      h | h | h | h <;> simp [h, List.replicate]
  have h₂ := hlen x [0, 0] 2 (by rw [List.length_cons, List.length_singleton]; omega)
  unfold shortScript
  simp only [exec_append, exec_dup, exec_rot, exec_equal, exec_toAlt, exec_ops_nil,
    Option.bind_some]
  rw [exec_padScript (by omega) (by rw [List.length_cons, List.length_singleton]; omega),
    Option.bind_some, exec_padScript (by omega) (by rw [List.length_singleton]; omega),
    Option.bind_some, exec_fromAlt, exec_ops_nil,
    Option.bind_some, Shifts.exec_either (.line (s := bytes [0]) rfl) (.line (s := bytes [0x80]) rfl),
    hpad, exec_bytes (by simp), exec_bytes (by simp)]
  by_cases hu : u = x
  · simp [hu, exec_cat]
    omega
  · simp [hu, exec_cat]
    omega

theorem pack_short {v : Int} (h : width v ≤ 3) :
    encode v.natAbs ++ List.replicate (3 - (encode v.natAbs).length) 0 ++
      [if encode v = encode v.natAbs then 0 else 0x80] = pack size v := by
  have hlt := (width_le_iff v 2).mp h
  have hfit := lt_pow_width v
  have hfill : encode (v.natAbs : Int) ++ List.replicate (3 - (encode v.natAbs).length) 0 =
      Bytes.ofNatLE 3 v.natAbs := by
    rw [length_encode, encode_natCast, width_natAbs, ← Bytes.ofNatLE_extend _ hfit]
    congr 1
    omega
  have hsplit (n : Nat) : Bytes.ofNatLE size n = Bytes.ofNatLE 3 n ++ [UInt8.ofNat (n / 256 ^ 3)] :=
    Bytes.ofNatLE_append 3 1 n
  rw [hfill]
  unfold pack
  rw [hsplit]
  by_cases hv : v < 0
  · have hne : encode v ≠ encode v.natAbs := fun he => by
      have := encode_injective he
      omega
    have hbit : 1 <<< (8 * size - 1) = 2 ^ 31 := Nat.one_shiftLeft 31
    have hmod : (v.natAbs + 2 ^ 31) % 256 ^ 3 = v.natAbs := by omega
    have hdiv : (v.natAbs + 2 ^ 31) / 256 ^ 3 = 128 := by omega
    rw [if_neg hne, if_pos hv, hbit, hdiv, ← Bytes.ofNatLE_mod 3 (v.natAbs + _), hmod]
    rfl
  · have he : (v.natAbs : Int) = v := by omega
    have hdiv : v.natAbs / 256 ^ 3 = 0 := by omega
    rw [if_pos (by rw [he]), if_neg hv, Nat.add_zero, hdiv]
    rfl

theorem exec_numberScript (u : Bytes) :
    exec (shaEnv H) numberScript ⟨⟨u :: m, l⟩, []⟩ =
      (decode u sizeLimit).toOption.map fun v =>
        ⟨⟨pack size v :: m, encode v.natAbs :: l⟩, []⟩ := by
  unfold numberScript
  simp only [exec_append, exec_dup]
  cases hu : decode u sizeLimit with
  | error e => rw [exec_abs_none hu]; rfl
  | ok v =>
    obtain ⟨hlen, rfl⟩ := decode_eq_ok_iff.mp hu
    have hw : width v ≤ 4 := by
      rw [length_encode] at hlen
      unfold sizeLimit at hlen
      omega
    have hlen' : (encode (v.natAbs : Int)).length = width v := by
      rw [length_encode, width_natAbs]
    rw [exec_abs hu, exec_dup, exec_toAlt, exec_size, hlen', exec_ops_nil, Option.bind_some,
      exec_num (by decide), Option.bind_some, exec_less (by omega) (by decide), exec_ops_nil,
      Option.bind_some, Shifts.exec_either shortScript_shifts (.line (s := ops [.drop]) rfl)]
    by_cases h3 : width v ≤ 3
    · rw [exec_shortScript (by omega), if_pos (decide_eq_true (by unfold size; omega)), pack_short h3]
      rfl
    · have h4 : width v = 4 := by omega
      rw [if_neg (by rw [decide_eq_true_iff]; unfold size; omega), exec_drop, exec_ops_nil, encode, h4]
      rfl

theorem exec_script (u : Bytes) :
    exec (shaEnv H) script ⟨⟨u :: m, l⟩, []⟩ =
      (ofUnit u).toOption.map fun p => ⟨⟨p.1 :: m, encode p.2 :: l⟩, []⟩ := by
  rw [script_eq]
  simp only [exec_append, exec_dup, exec_ops_nil, Option.bind_some]
  rw [exec_bytes (by decide), Option.bind_some, exec_equal, exec_ops_nil, Option.bind_some,
    Shifts.exec_either zeroScript_shifts numberScript_shifts]
  unfold ofUnit
  by_cases hz : u = negativeZeroUnit
  · subst hz
    rfl
  · rw [if_neg (by simpa using Ne.symm hz), if_neg hz, exec_numberScript]
    cases decode u sizeLimit <;> rfl

theorem canonicalScript_shifts : Shifts canonicalScript 0 0 1 :=
  ((Shifts.line (s := ops [.dup, .not]) rfl).append
    (.only (.inr rfl) (.line (s := ops [.sub1]) rfl))).of_eq rfl rfl (by decide)

theorem exec_canonicalScript {n : Nat} (hn : n < 2 ^ 31) :
    exec (shaEnv H) canonicalScript ⟨⟨encode n :: m, l⟩, []⟩ =
      some ⟨⟨encode (canonical n) :: m, l⟩, []⟩ := by
  change exec (shaEnv H) (ops [.dup, .not] ++ (.op .ifFalse :: (ops [.sub1] ++ [.op .endIf]))) _ = _
  rw [exec_append, exec_dup, exec_not (by omega), exec_ops_nil, Option.bind_some,
    Shifts.exec_unless (.line (s := ops [.sub1]) rfl), exec_sub1 (by omega), exec_ops_nil]
  unfold canonical
  by_cases hz : (n : Int) = 0
  · rw [if_pos (decide_eq_true hz), if_pos hz, hz]
  · rw [if_neg (by rwa [decide_eq_true_iff]), if_neg hz]

theorem ofUnit_cases {u : Bytes} {p : Bytes × Nat} (h : ofUnit u = .ok p) :
    u = negativeZeroUnit ∧ p = (negativeZero, 0) ∨
      u ≠ negativeZeroUnit ∧ ∃ v, decode u sizeLimit = .ok v ∧ p = (pack size v, v.natAbs) := by
  unfold ofUnit at h
  by_cases hu : u = negativeZeroUnit
  · rw [if_pos hu] at h
    cases h
    exact .inl ⟨hu, rfl⟩
  · rw [if_neg hu] at h
    cases hd : decode u sizeLimit with
    | error e =>
      rw [hd] at h
      cases h
    | ok v =>
      rw [hd] at h
      cases h
      exact .inr ⟨hu, v, rfl, rfl⟩

theorem ofUnit_bounds {u word : Bytes} {raw : Nat} (h : ofUnit u = .ok (word, raw)) :
    word.length = size ∧ raw < 2 ^ 31 := by
  obtain ⟨-, hp⟩ | ⟨-, v, hd, hp⟩ := ofUnit_cases h
  · cases hp
    exact ⟨rfl, by decide⟩
  · cases hp
    exact ⟨Bytes.length_ofNatLE _ _, natAbs_lt_of_decode hd⟩

theorem length_le_of_ofUnit {u : Bytes} {p : Bytes × Nat} (h : ofUnit u = .ok p) :
    u.length ≤ size := by
  obtain ⟨rfl, -⟩ | ⟨-, v, hd, -⟩ := ofUnit_cases h
  · decide
  · have hlen := (decode_eq_ok_iff.mp hd).1
    unfold sizeLimit at hlen
    unfold size
    omega

theorem eq_negativeZero_of_value {word : Bytes} (hlen : word.length = size)
    (hz : value word = 0) (hne : word ≠ List.replicate size 0) : word = negativeZero := by
  have hr := Bytes.ofNatLE_toNatLE word
  rw [hlen] at hr
  unfold value at hz
  simp only [hlen] at hz
  split at hz
  · rename_i hs
    have hn : Bytes.toNatLE word = 2 ^ (8 * size - 1) := by omega
    rw [← hr, hn]
    rfl
  · have hn : Bytes.toNatLE word = 0 := by omega
    rw [hn, Bytes.ofNatLE_zero] at hr
    exact absurd hr.symm hne

theorem raw_eq {word : Bytes} (hlen : word.length = size) : raw word = word.toNatLE % 2 ^ 31 := by
  rcases Bytes.eq_nil_or_append_singleton word with rfl | ⟨bs, b, rfl⟩
  · cases hlen
  · have hbs : bs.length = 3 := by
      rw [List.length_append, List.length_singleton, size] at hlen
      omega
    have hlt := Bytes.toNatLE_lt bs
    have hsum : Bytes.toNatLE (bs ++ [b]) = Bytes.toNatLE bs + 256 ^ 3 * b.toNat := by
      simp [Bytes.toNatLE_append, Bytes.toNatLE, hbs]
    rw [raw, natAbs_value_concat, hsum, hbs]
    rw [hbs] at hlt
    omega

theorem ofUnit_unit {word : Bytes} (hlen : word.length = size) :
    ofUnit (unit word) = .ok (word, raw word) := by
  unfold unit
  by_cases hn : word = negativeZero
  · rw [if_pos hn, hn]
    rfl
  · have hmin := isMinimal_encode (value word)
    have hne : encode (value word) ≠ negativeZeroUnit := fun he => by
      rw [he] at hmin
      exact absurd hmin (by decide)
    have hsmall : (value word).natAbs < 2 ^ 31 := by
      rw [← raw, raw_eq hlen]
      exact Nat.mod_lt _ (by decide)
    have hpack : pack size (value word) = word := by
      by_cases hz : value word = 0
      · by_cases hrep : word = List.replicate size 0
        · rw [hrep]
          rfl
        · exact absurd (eq_negativeZero_of_value hlen hz hrep) hn
      · rw [← hlen]
        exact pack_value_of_ne_zero hz
    unfold ofUnit
    rw [if_neg hn, if_neg hne, decode_encode_small hsmall]
    simp only [bind, Except.bind, hpack, raw]
    rfl

/-- A unit that is read is the unit of the word it stands for. -/
theorem eq_unit_of_ofUnit {u word : Bytes} {r : Nat} (h : ofUnit u = .ok (word, r)) :
    u = unit word ∧ r = raw word := by
  obtain ⟨rfl, hp⟩ | ⟨-, v, hd, hp⟩ := ofUnit_cases h
  · cases hp
    exact ⟨rfl, rfl⟩
  · cases hp
    have hsmall := natAbs_lt_of_decode hd
    obtain ⟨-, rfl⟩ := decode_eq_ok_iff.mp hd
    have hvalue : value (pack size v) = v := value_pack_succ v 3 hsmall
    have hne : pack size v ≠ negativeZero := by
      intro hz
      have hzero : value negativeZero = 0 := by decide
      rw [hz, hzero] at hvalue
      subst hvalue
      exact absurd hz (by decide)
    exact ⟨by rw [unit, if_neg hne, hvalue], by rw [raw, hvalue]⟩

theorem ofUnit_eq_ok_iff {u word : Bytes} {r : Nat} :
    ofUnit u = .ok (word, r) ↔
      word.length = size ∧ unit word = u ∧ r = word.toNatLE % 2 ^ 31 := by
  constructor
  · intro h
    have hlen := (ofUnit_bounds h).1
    obtain ⟨hu, hr⟩ := eq_unit_of_ofUnit h
    exact ⟨hlen, hu.symm, hr.trans (raw_eq hlen)⟩
  · rintro ⟨hlen, rfl, rfl⟩
    rw [ofUnit_unit hlen, raw_eq hlen]

theorem unitOf_eq_ok_iff {word u : Bytes} :
    unitOf word = .ok u ↔ word.length = size ∧ unit word = u := by
  unfold unitOf
  split <;> simp_all

theorem unit_bijOn :
    Set.BijOn unit {word | word.length = size} {u | ∃ p, ofUnit u = .ok p} := by
  refine ⟨?_, ?_, ?_⟩
  · intro word hlen
    exact ⟨_, ofUnit_unit hlen⟩
  · intro word hlen word' hlen' he
    have hread := (ofUnit_unit hlen).symm.trans (congrArg ofUnit he)
    rw [ofUnit_unit hlen', Except.ok.injEq, Prod.mk.injEq] at hread
    exact hread.1
  · rintro u ⟨⟨word, r⟩, h⟩
    obtain ⟨hlen, hu, -⟩ := ofUnit_eq_ok_iff.mp h
    exact ⟨word, hlen, hu⟩

/-- Words and units are in bijection. The unit of a word is read as the word and its value without
the top bit; every string is refused, or it is the unit of the word that it is read as. So each word
has one unit, and the negative zero has a single byte. -/
theorem words_units_bijective :
    Set.BijOn unit {word | word.length = size} {u | ∃ p, ofUnit u = .ok p} ∧
    (∀ word : Bytes, word.length = size →
      ∃ u, unitOf word = .ok u ∧ ofUnit u = .ok (word, word.toNatLE % 2 ^ 31)) ∧
    (∀ u : Bytes, (∃ cause, ofUnit u = .error cause) ∨
      ∃ word r, ofUnit u = .ok (word, r) ∧ word.length = size ∧ r < 2 ^ 31 ∧
        unitOf word = .ok u) ∧
    (∀ word : Bytes, word.length = size → ∃! u, ∃ r, ofUnit u = .ok (word, r)) ∧
    ∀ (u : Bytes) (r : Nat), ofUnit u = .ok ([0, 0, 0, 0x80], r) ↔ u = [0x80] ∧ r = 0 := by
  refine ⟨unit_bijOn, ?_, ?_, ?_, ?_⟩
  · intro word hlen
    exact ⟨unit word, unitOf_eq_ok_iff.mpr ⟨hlen, rfl⟩, ofUnit_eq_ok_iff.mpr ⟨hlen, rfl, rfl⟩⟩
  · intro u
    cases h : ofUnit u with
    | error cause => exact .inl ⟨cause, rfl⟩
    | ok p =>
      obtain ⟨hlen, hu, -⟩ := ofUnit_eq_ok_iff.mp h
      exact .inr ⟨p.1, p.2, rfl, hlen, (ofUnit_bounds h).2, unitOf_eq_ok_iff.mpr ⟨hlen, hu⟩⟩
  · intro word hlen
    refine ⟨unit word, ⟨_, ofUnit_unit hlen⟩, ?_⟩
    rintro u ⟨r, h⟩
    exact (ofUnit_eq_ok_iff.mp h).2.1.symm
  · intro u r
    have hunit : unit [0, 0, 0, 0x80] = [0x80] := by decide
    have hvalue : Bytes.toNatLE [0, 0, 0, 0x80] % 2 ^ 31 = 0 := by decide
    rw [ofUnit_eq_ok_iff, hunit, hvalue, eq_comm (a := u)]
    exact and_iff_right rfl

theorem words_units_bijective_signByte :
    let word : Bytes := [0x80, 0, 0, 0x80]
    unitOf word = .ok [0x80, 0x80] ∧ ofUnit [0x80, 0x80] = .ok (word, 128) ∧
      ∀ u r, ofUnit u = .ok (word, r) → u = [0x80, 0x80] := by
  intro word
  obtain ⟨-, hback, -, hunique, -⟩ := words_units_bijective
  have hlen : word.length = size := rfl
  have hunit : unitOf word = .ok [0x80, 0x80] := by decide
  obtain ⟨u, hu, hread⟩ := hback word hlen
  obtain rfl := Except.ok.inj (hu.symm.trans hunit)
  have hvalue : word.toNatLE % 2 ^ 31 = 128 := by decide
  rw [hvalue] at hread
  exact ⟨hunit, hread, fun v r hv => (hunique word hlen).unique ⟨r, hv⟩ ⟨_, hread⟩⟩

theorem canonical_bounds {n : Nat} (hn : n < 2 ^ 31) :
    0 ≤ canonical n ∧ canonical n < 2 ^ 31 - 1 := by
  unfold canonical
  split <;> omega

end

/-! ### The room that the word script needs -/

/-- The most items that the word script holds beside those that it finds. -/
def room (u : Bytes) : Nat := if u = negativeZeroUnit then 2 else 4

def compareScript : Script := ops [.dup] ++ bytes negativeZeroUnit ++ ops [.equal]

/-- The branch for numbers as far as its largest stacks. -/
def measureScript : Script := ops [.dup, .abs, .dup, .toAlt, .size] ++ num size

theorem compareScript_shifts : Shifts compareScript 1 0 2 := .line rfl

theorem measureScript_shifts : Shifts measureScript 3 1 4 := .line rfl

section

variable {H : Bytes → Bytes} {u : Bytes} {p : Bytes × Nat} {rest alt : List Bytes} {m : Machine}

theorem exec_compareScript (u : Bytes) :
    exec (shaEnv H) compareScript ⟨⟨u :: rest, alt⟩, []⟩ =
      some ⟨⟨ofBool (negativeZeroUnit = u) :: u :: rest, alt⟩, []⟩ := rfl

theorem exec_measureScript {v : Int} (hv : decode u sizeLimit = .ok v) :
    exec (shaEnv H) measureScript ⟨⟨u :: rest, alt⟩, []⟩ =
      some ⟨⟨encode size :: encode (encode v.natAbs).length :: encode v.natAbs :: u :: rest,
        encode v.natAbs :: alt⟩, []⟩ := by
  unfold measureScript
  rw [exec_append, exec_dup, exec_abs hv, exec_dup, exec_toAlt, exec_size, exec_ops_nil,
    Option.bind_some, exec_num (by decide)]

theorem exec_script_of_ok (hp : ofUnit u = .ok p) (hstack : m.stack = ⟨u :: rest, alt⟩) :
    exec (shaEnv H) script ⟨m.stack, []⟩ = some ⟨⟨p.1 :: rest, encode p.2 :: alt⟩, []⟩ := by
  rw [hstack, exec_script, hp]
  rfl

theorem script_leaves (hp : ofUnit u = .ok p) (ha : m.active = true)
    (hstack : m.stack = ⟨u :: rest, alt⟩) (hroom : (m.stack.size : Int) + room u ≤ 1000) :
    m.Leaves (shaEnv H) script ⟨p.1 :: rest, encode p.2 :: alt⟩ := by
  have hexec := exec_script_of_ok (H := H) hp hstack
  unfold room at hroom
  by_cases hu : u = negativeZeroUnit
  · rw [if_pos hu] at hroom
    have hcompare : exec (shaEnv H) compareScript m.frame =
        some ⟨⟨ofBool true :: u :: rest, alt⟩, m.branches⟩ := by
      rw [Machine.frame, hstack, compareScript_shifts.exec_inside ha, exec_compareScript, hu]
      rfl
    -- the branch for numbers is passed over, so its room is not needed
    have hzero : Followed (shaEnv H)
        (.op .ifTrue :: (zeroScript ++ .op .orElse :: (numberScript ++ [.op .endIf])))
        ⟨⟨ofBool true :: u :: rest, alt⟩, m.branches⟩ :=
      zeroScript_shifts.followed_ifTrue numberScript_shifts ha (by rw [← hstack]; omega)
    have hscript := (compareScript_shifts.followed (H := H) ha hroom).append fun g hg => by
      cases hcompare.symm.trans hg
      exact hzero
    exact hscript.leaves ((script_shifts.exec_inside ha).trans (by rw [hexec]; rfl))
  · rw [if_neg hu] at hroom
    exact script_shifts.leaves ha hroom hexec

theorem script_overflows (hp : ofUnit u = .ok p) (ha : m.active = true)
    (hstack : m.stack = ⟨u :: rest, alt⟩) (hsize : m.stack.size ≤ 1000)
    (hfull : 1000 < (m.stack.size : Int) + room u) : m.Overflows (shaEnv H) script := by
  unfold room at hfull
  obtain ⟨hu, -⟩ | ⟨hu, v, hv, -⟩ := ofUnit_cases hp
  · rw [if_pos hu] at hfull
    have hpart : ops [.dup] ++ bytes negativeZeroUnit <+: script := ⟨_, rfl⟩
    exact (Shifts.line rfl).overflows hpart ha hsize (by omega) (exec_script_of_ok hp hstack)
  · rw [if_neg hu] at hfull
    have hnumber : decide (negativeZeroUnit = u) = false := decide_eq_false (Ne.symm hu)
    have hpart : exec (shaEnv H)
        (compareScript ++ (.op .ifTrue :: (zeroScript ++ .op .orElse :: measureScript))) m.frame =
          some ⟨⟨encode size :: encode (encode v.natAbs).length :: encode v.natAbs :: u :: rest,
            encode v.natAbs :: alt⟩, true :: m.branches⟩ := by
      rw [exec_append, Machine.frame, hstack, compareScript_shifts.exec_inside ha,
        exec_compareScript, hnumber]
      refine (zeroScript_shifts.exec_second measureScript_shifts ha).trans ?_
      rw [exec_measureScript hv]
      rfl
    refine Machine.overflows_of_exec (Int.ofNat_le.mpr hsize) hpart ?_ _
    rw [hstack] at hfull
    change (1000 : Int) < _
    simp only [Stacks.size, List.length_cons] at hfull ⊢
    omega

end

/-- The word script on a machine is `ofUnit`, with any hasher whose opcode it does not use. It puts
the word in place of a unit and its magnitude on the alt stack, where there is room for the items
that it needs, and stops at every other string. -/
theorem script_rebuilds_word {h : Hasher} (hh : .op h.opcode ∉ script) (u : Bytes)
    (rest alt : List Bytes) {m : Machine} (ha : m.active = true)
    (hstack : m.stack = ⟨u :: rest, alt⟩) (hsize : m.stack.size ≤ 1000) :
    (∀ word r, ofUnit u = .ok (word, r) →
      m.Needs ⟨h, {}⟩ script (room u) ⟨word :: rest, encode r :: alt⟩) ∧
    (∀ cause, ofUnit u = .error cause → m.Aborts ⟨h, {}⟩ script) ∧
    (m.stack.size + room u ≤ 1000 →
      (m.Aborts ⟨h, {}⟩ script ↔ ∃ cause, ofUnit u = .error cause)) := by
  have hsha : .op .sha256 ∉ script := by decide
  have hgood (word : Bytes) (r : Nat) (hp : ofUnit u = .ok (word, r)) :
      m.Needs ⟨h, {}⟩ script (room u) ⟨word :: rest, encode r :: alt⟩ :=
    .of_unused (H := h.digest) hh hsha
      ⟨script_leaves hp ha hstack, script_overflows hp ha hstack hsize⟩
  have hbad (cause : NumberError) (he : ofUnit u = .error cause) : m.Aborts ⟨h, {}⟩ script := by
    have hrun := script_shifts.attains_or_aborts (H := h.digest) ha
    rw [hstack, exec_script, he] at hrun
    exact .of_unused hh hsha hrun
  refine ⟨hgood, hbad, fun hroom => ⟨fun hstop => ?_, fun ⟨cause, he⟩ => hbad cause he⟩⟩
  have hroom' : (m.stack.size : Int) + room u ≤ 1000 := by omega
  cases hp : ofUnit u with
  | error cause => exact ⟨cause, rfl⟩
  | ok p => exact absurd hstop ((hgood p.1 p.2 hp).not_aborts hroom')

/-- A number goes through beside 995 items and not beside 996, the negative zero beside two more; a
number with a byte too many is refused. -/
theorem script_rebuilds_word_full :
    let m (u : Bytes) (k : Nat) : Machine := { stack := ⟨u :: List.replicate k [], [[9]]⟩ }
    let env : Env := ⟨Hasher.sha256, {}⟩
    (m [0x85] 994).Leaves env script ⟨[5, 0, 0, 0x80] :: List.replicate 994 [], [[5], [9]]⟩ ∧
      (m [0x85] 995).Overflows env script ∧
      (m [0x80] 996).Leaves env script ⟨[0, 0, 0, 0x80] :: List.replicate 996 [], [[], [9]]⟩ ∧
      (m [5, 0] 994).Aborts env script := by
  intro m env
  have hsize (u : Bytes) (k : Nat) : (m u k).stack.size = k + 2 := by simp [m, Stacks.size]
  have hunused : .op Hasher.sha256.opcode ∉ script := by decide
  have hrun (u : Bytes) (k : Nat) (hk : k ≤ 998) := script_rebuilds_word hunused u
    (List.replicate k []) [[9]] (m := m u k) rfl rfl (by rw [hsize]; omega)
  have hfive : ofUnit [0x85] = .ok ([5, 0, 0, 0x80], 5) := by decide
  have hzero : ofUnit [0x80] = .ok ([0, 0, 0, 0x80], 0) := by decide
  have hlong : ofUnit [5, 0] = .error (.notMinimal [5, 0]) := by decide
  refine ⟨((hrun _ 994 (by decide)).1 _ _ hfive).leaves ?_,
    ((hrun _ 995 (by decide)).1 _ _ hfive).overflows ?_,
    ((hrun _ 996 (by decide)).1 _ _ hzero).leaves ?_, (hrun _ 994 (by decide)).2.1 _ hlong⟩
  · rw [hsize]
    decide
  · rw [hsize]
    decide
  · rw [hsize]
    decide

end Word

end HintScript
