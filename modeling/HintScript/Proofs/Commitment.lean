import HintScript.Commitment
import HintScript.Proofs.Shift

set_option autoImplicit false

namespace HintScript

open Number Script

/-- Items that leave room beside a digest. -/
def Short (l : List Bytes) : Prop := ∀ x ∈ l, x.length ≤ 488

instance (l : List Bytes) : Decidable (Short l) :=
  inferInstanceAs (Decidable (∀ x ∈ l, x.length ≤ 488))

theorem Short.cons_iff {x : Bytes} {l : List Bytes} :
    Short (x :: l) ↔ x.length ≤ 488 ∧ Short l := List.forall_mem_cons

def QM31.items (x : QM31) : List Bytes := x.components.map encode

theorem QM31.items_ne_nil (x : QM31) : x.items ≠ [] := List.cons_ne_nil _ _

namespace Commitment

/-- Items hashed into one another as components are. -/
def nest (H : Bytes → Bytes) : List Bytes → Bytes
  | [] => []
  | [x] => H x
  | x :: y :: rest => H (x ++ nest H (y :: rest))

theorem nested_eq (h : Hasher) (c : Int) (rest : List Int) :
    nested h c rest = nest h.digest ((c :: rest).map encode) := by
  induction rest generalizing c with
  | nil => rfl
  | cons d rest ih =>
    rw [nested, ih]
    rfl

theorem length_nest {H : Bytes → Bytes} (hH : ∀ data, (H data).length = digestSize)
    {xs : List Bytes} (hx : xs ≠ []) : (nest H xs).length = digestSize := by
  match xs with
  | [_] => exact hH _
  | _ :: _ :: _ => exact hH _

theorem ofComponents_digest {h : Hasher} (hw : h.Wide) {cs : List Int} (hc : cs ≠ []) :
    ∃ c, ofComponents h cs = .ok c ∧ c.digest = nest h.digest (cs.map encode) := by
  cases cs with
  | nil => exact absurd rfl hc
  | cons c rest =>
    have hlen : (nest h.digest ((c :: rest).map encode)).length = digestSize :=
      length_nest hw (by simp)
    refine ⟨⟨_, hlen⟩, ?_, rfl⟩
    rw [ofComponents, nested_eq]
    exact dif_pos hlen

theorem ofQM31_digest {h : Hasher} (hw : h.Wide) (x : QM31) :
    ∃ c, ofQM31 h x = .ok c ∧ c.digest = nest h.digest x.items :=
  ofComponents_digest hw (List.cons_ne_nil _ _)

section

variable {H : Bytes → Bytes} {m l : List Bytes}

theorem script_succ (h : Hasher) (k : Nat) :
    script h (k + 2) = script h (k + 1) ++ (ops [.cat] ++ hash h) := by
  unfold script
  rw [Nat.add_sub_cancel, show k + 2 - 1 = k + 1 from rfl, times_succ_right, List.append_assoc]

/-- The commitment script nests hashes; every item but the last is joined to a digest. -/
theorem exec_script (hH : ∀ data, (H data).length = digestSize) {xs : List Bytes} (hx : xs ≠ []) :
    exec (shaEnv H) (script ⟨.sha256, H⟩ xs.length) ⟨⟨xs.reverse ++ m, l⟩, []⟩ =
      if Short xs.dropLast then some ⟨⟨nest H xs :: m, l⟩, []⟩ else none := by
  induction xs generalizing m with
  | nil => exact absurd rfl hx
  | cons x xs ih =>
    cases xs with
    | nil => rfl
    | cons y ys =>
      have hy : (nest H (y :: ys)).length = 32 := length_nest hH (by simp)
      rw [List.length_cons, List.length_cons, script_succ, exec_append, List.reverse_cons,
        List.append_assoc, ← List.length_cons (a := y), ih (by simp)]
      have hiff : Short (x :: y :: ys).dropLast ↔ x.length ≤ 488 ∧ Short (y :: ys).dropLast :=
        Short.cons_iff
      by_cases hall : Short (y :: ys).dropLast
      · rw [if_pos hall, Option.bind_some, exec_append]
        change (exec (shaEnv H) (ops [.cat]) ⟨⟨_ :: x :: m, l⟩, []⟩).bind
          (exec (shaEnv H) (ops [.sha256])) = _
        rw [exec_cat, hy]
        by_cases hle : x.length ≤ 488
        · rw [if_pos (by omega), if_pos (hiff.mpr ⟨hle, hall⟩), exec_ops_nil, Option.bind_some, exec_sha256,
            exec_ops_nil]
          rfl
        · rw [if_neg (by omega), if_neg fun h => hle (hiff.mp h).1]
          rfl
      · rw [if_neg hall, if_neg fun h => hall (hiff.mp h).2]
        rfl

theorem script_shifts (H : Bytes → Bytes) (k : Nat) :
    Shifts (script ⟨.sha256, H⟩ (k + 1)) (-k) 0 0 :=
  ((Shifts.line (s := ops [.sha256]) rfl).append
    ((Shifts.line (s := ops [.cat] ++ ops [.sha256]) rfl).times k (k := 0) (by decide)
      (by decide))).of_eq (by omega) (by omega) (by omega)

end

/-- On a machine the script replaces components by the digest of their commitment, however many
there are, and leaves the rest as it was. Every component but the last is joined to a digest, and
one that is too long for that stops it. -/
theorem script_commits {h : Hasher} (ho : h.opcode = .sha256) (hw : h.Wide) {cs : List Int}
    (hc : cs ≠ []) (rest alt : List Bytes) {m : Machine} (ha : m.active = true)
    (hstack : m.stack = ⟨(cs.map encode).reverse ++ rest, alt⟩) (hsize : m.stack.size ≤ 1000) :
    ∃ c s, ofComponents h cs = .ok c ∧ scriptFor h cs.length = .ok s ∧
      (Short (cs.map encode).dropLast → m.Leaves ⟨h, {}⟩ s ⟨c.digest :: rest, alt⟩) ∧
      (¬ Short (cs.map encode).dropLast → m.Aborts ⟨h, {}⟩ s) := by
  obtain ⟨o, H⟩ := h
  obtain rfl : o = .sha256 := ho
  obtain ⟨c, hdone, hdigest⟩ := ofComponents_digest hw hc
  obtain ⟨k, hk⟩ := Nat.exists_eq_add_of_le' (List.length_pos_iff.mpr hc)
  have hitems : cs.map encode ≠ [] := by simpa using hc
  have hexec := exec_script (m := rest) (l := alt) hw hitems
  rw [List.length_map, ← hstack, ← hdigest] at hexec
  have hshift := script_shifts H k
  rw [← hk] at hshift
  refine ⟨c, script ⟨.sha256, H⟩ cs.length, hdone, if_neg (by omega), ?_, ?_⟩
  · intro hshort
    rw [if_pos hshort] at hexec
    exact hshift.leaves ha (by omega) hexec
  · intro hlong
    rw [if_neg hlong] at hexec
    exact hshift.aborts ha (by omega) hexec

theorem script_commits_boundary :
    let m (n : Nat) : Machine := { stack := ⟨[encode (-1), encode (2 ^ n), encode 5, [42]], [[9]]⟩ }
    (∃ c s, ofComponents Hasher.sha256 [5, 2 ^ 3902, -1] = .ok c ∧
      scriptFor Hasher.sha256 3 = .ok s ∧
      (m 3902).Leaves ⟨Hasher.sha256, {}⟩ s ⟨[c.digest, [42]], [[9]]⟩) ∧
    ∃ s, scriptFor Hasher.sha256 3 = .ok s ∧ (m 3903).Aborts ⟨Hasher.sha256, {}⟩ s := by
  intro m
  have hlen (n : Nat) : (encode (2 ^ n)).length ≤ 488 ↔ n < 3903 := by
    have hbits : 8 * 488 - 1 = 3903 := rfl
    have htwo : (2 : Int).natAbs = 2 := rfl
    rw [length_encode_le_iff (by decide), hbits, Int.natAbs_pow, htwo,
      Nat.pow_lt_pow_iff_right (by decide)]
  have hshort (n : Nat) : Short (([5, 2 ^ n, -1] : List Int).map encode).dropLast ↔ n < 3903 := by
    change Short [encode 5, encode (2 ^ n)] ↔ _
    rw [Short.cons_iff, Short.cons_iff, hlen]
    exact ⟨fun h => h.2.1, fun h => ⟨by decide, h, by simp [Short]⟩⟩
  have hrun (n : Nat) := script_commits (h := Hasher.sha256) rfl Hasher.sha256_wide
    (List.cons_ne_nil 5 [2 ^ n, -1]) [[42]] [[9]] (m := m n) rfl rfl
    (show 5 ≤ 1000 by decide)
  obtain ⟨c, s, hc, hs, hleaves, -⟩ := hrun 3902
  obtain ⟨-, t, -, ht, -, haborts⟩ := hrun 3903
  exact ⟨⟨c, s, hc, hs, hleaves ((hshort _).mpr (by decide))⟩,
    t, ht, haborts (mt (hshort _).mp (by decide))⟩

end Commitment

end HintScript
