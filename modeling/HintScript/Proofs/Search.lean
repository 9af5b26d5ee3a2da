import HintScript.Proofs.Number
import HintScript.Work

/-! The search for a nonce.

Counters are tried in turn from a start. The search stops at the first counter that is out of range
or meets the difficulty, and answers with what that counter is as a nonce; or it spends its attempts
before.
-/

set_option autoImplicit false

namespace HintScript.Work

def Fails (h : Hasher) (state : Bytes) (d : Difficulty) (n : Int) : Prop :=
  0 ≤ n ∧ n < 2 ^ 64 ∧
    leadingZeroBits (h.digest (state ++ Bytes.ofNatLE nonceSize n.toNat)) < d.bits

/-- The search comes to try `c`: all counters before it have failed, and an attempt is left. -/
structure Tries (h : Hasher) (state : Bytes) (d : Difficulty) (start : Int) (attempts : Option Int)
    (c : Int) : Prop where
  le : start ≤ c
  left : ∀ limit ∈ attempts, c - start < limit
  failed : ∀ n, start ≤ n → n < c → Fails h state d n

structure Stops (h : Hasher) (state : Bytes) (d : Difficulty) (start : Int) (attempts : Option Int)
    (c : Int) : Prop extends Tries h state d start attempts c where
  ends : ¬ Fails h state d c

/-- All attempts have failed, if there were any. -/
structure Spent (h : Hasher) (state : Bytes) (d : Difficulty) (start : Int) (attempts : Option Int)
    (limit : Int) : Prop where
  mem : limit ∈ attempts
  failed : ∀ n, start ≤ n → n < start + limit → Fails h state d n

theorem nonceBound_eq : nonceBound = 2 ^ 64 := Nat.one_shiftLeft 64

theorem nonce_eq_ok_iff {n : Int} {b : Bytes} :
    nonce n = .ok b ↔ 0 ≤ n ∧ n < 2 ^ 64 ∧ b = Bytes.ofNatLE nonceSize n.toNat := by
  have hbound := nonceBound_eq
  unfold nonce
  split
  · simp only [reduceCtorEq, false_iff]
    omega
  · split
    · simp only [reduceCtorEq, false_iff]
      omega
    · rw [Except.ok.injEq, eq_comm]
      constructor
      · intro hb
        exact ⟨by omega, by omega, hb⟩
      · intro hb
        exact hb.2.2

theorem nonce_eq_error_iff {n : Int} {e : Error} :
    nonce n = .error e ↔ n < 0 ∧ e = .nonceNegative ∨ 2 ^ 64 ≤ n ∧ e = .nonceTooLarge := by
  have hbound := nonceBound_eq
  unfold nonce
  split
  · rw [Except.error.injEq, eq_comm]
    constructor
    · intro he
      exact .inl ⟨by omega, he⟩
    · rintro (he | he)
      · exact he.2
      · omega
  · split
    · rw [Except.error.injEq, eq_comm]
      constructor
      · intro he
        exact .inr ⟨by omega, he⟩
      · rintro (he | he)
        · omega
        · exact he.2
    · simp only [reduceCtorEq, false_iff]
      omega

section

variable {h : Hasher} {state : Bytes} {d : Difficulty} {start : Int} {attempts : Option Int}

theorem meets_eq_false_iff {b : Bytes} :
    meets h state d b = false ↔ leadingZeroBits (h.digest (state ++ b)) < d.bits := by
  simp [meets]

theorem fails_iff_of_nonce {n : Int} {b : Bytes} (hn : nonce n = .ok b) :
    Fails h state d n ↔ meets h state d b = false := by
  obtain ⟨h0, hlt, rfl⟩ := nonce_eq_ok_iff.mp hn
  rw [meets_eq_false_iff, Fails]
  tauto

theorem not_fails_of_nonce_error {n : Int} {e : Error} (hn : nonce n = .error e) :
    ¬ Fails h state d n := by
  intro hf
  have hok := nonce_eq_ok_iff.mpr ⟨hf.1, hf.2.1, rfl⟩
  cases hok.symm.trans hn

theorem left_iff (x : Int) :
    attempts.filter (· ≤ x) = none ↔ ∀ limit ∈ attempts, x < limit := by
  cases attempts <;> simp [Option.filter]

theorem failed_succ {start c : Int} (hfailed : ∀ n, start ≤ n → n < c → Fails h state d n)
    (hc : Fails h state d c) : ∀ n, start ≤ n → n < c + 1 → Fails h state d n := by
  intro n hn hlt
  rcases (Int.lt_add_one_iff.mp hlt).lt_or_eq with hlt | rfl
  · exact hfailed n hn hlt
  · exact hc

/-- The search from a counter on, after all counters before it have failed. -/
theorem search_cases {start counter : Nat} (hle : start ≤ counter)
    (hfailed : ∀ n : Int, start ≤ n → n < counter → Fails h state d n) :
    (∃ c, Stops h state d start attempts c ∧ search h state d start attempts counter = nonce c) ∨
      ∃ limit, Spent h state d start attempts limit ∧
        search h state d start attempts counter = .error (.invalid (.attempts d.bits limit)) := by
  have hbound := nonceBound_eq
  fun_induction search h state d start attempts counter with
  | case1 counter limit hlimit =>
    obtain ⟨hmem, hspent⟩ := Option.filter_eq_some_iff.mp hlimit
    have hspent := of_decide_eq_true hspent
    exact .inr ⟨limit, ⟨hmem, fun n hn hlt => hfailed n hn (by omega)⟩, rfl⟩
  | case2 counter hnone hlt candidate hmeets =>
    have hn : nonce counter = .ok candidate := nonce_eq_ok_iff.mpr ⟨by omega, by omega, rfl⟩
    refine .inl ⟨counter, ⟨⟨by omega, left_iff _ |>.mp hnone, hfailed⟩, ?_⟩, hn.symm⟩
    rw [fails_iff_of_nonce hn, hmeets]
    exact Bool.noConfusion
  | case3 counter hnone hlt candidate hmeets ih =>
    have hn : nonce counter = .ok candidate := nonce_eq_ok_iff.mpr ⟨by omega, by omega, rfl⟩
    have hf := (fails_iff_of_nonce hn).mpr (Bool.eq_false_of_not_eq_true hmeets)
    exact ih (by omega) (failed_succ hfailed hf)
  | case4 counter hnone hge =>
    have hn : nonce counter = .error .nonceTooLarge :=
      nonce_eq_error_iff.mpr (.inr ⟨by omega, rfl⟩)
    exact .inl ⟨counter, ⟨⟨by omega, left_iff _ |>.mp hnone, hfailed⟩,
      not_fails_of_nonce_error hn⟩, hn.symm⟩

theorem grind_cases (h : Hasher) (state : Bytes) (d : Difficulty) (start : Int)
    (attempts : Option Int) :
    (∃ c, Stops h state d start attempts c ∧ grind h state d start attempts = nonce c) ∨
      ∃ limit, Spent h state d start attempts limit ∧
        grind h state d start attempts = .error (.invalid (.attempts d.bits limit)) := by
  unfold grind
  split
  · next hstart =>
    obtain ⟨start, rfl⟩ := Int.eq_ofNat_of_zero_le hstart
    exact search_cases le_rfl (fun n hn hlt => absurd hlt hn.not_gt)
  · next hstart =>
    split
    · next limit hlimit =>
      obtain ⟨hmem, hspent⟩ := Option.filter_eq_some_iff.mp hlimit
      have hspent := of_decide_eq_true hspent
      exact .inr ⟨limit, ⟨hmem, fun n hn hlt => by omega⟩, rfl⟩
    · next hnone =>
      have hn : nonce start = .error .nonceNegative :=
        nonce_eq_error_iff.mpr (.inl ⟨by omega, rfl⟩)
      refine .inl ⟨start, ⟨⟨le_rfl, ?_, fun n hn hlt => absurd hlt hn.not_gt⟩,
        not_fails_of_nonce_error hn⟩, hn.symm⟩
      rw [sub_self]
      exact (left_iff 0).mp hnone

theorem Stops.unique {c c' : Int} (hc : Stops h state d start attempts c)
    (hc' : Stops h state d start attempts c') : c = c' := by
  rcases lt_trichotomy c c' with hlt | heq | hgt
  · exact absurd (hc'.failed c hc.le hlt) hc.ends
  · exact heq
  · exact absurd (hc.failed c' hc'.le hgt) hc'.ends

theorem Stops.not_spent {c limit : Int} (hc : Stops h state d start attempts c) :
    ¬ Spent h state d start attempts limit := by
  intro hs
  have hleft := hc.left limit hs.mem
  exact hc.ends (hs.failed c hc.le (by omega))

theorem grind_of_stops {c : Int} (hc : Stops h state d start attempts c) :
    grind h state d start attempts = nonce c := by
  rcases grind_cases h state d start attempts with ⟨c', hc', hg⟩ | ⟨limit, hs, -⟩
  · rw [hg, hc.unique hc']
  · exact absurd hs hc.not_spent

theorem grind_of_spent {limit : Int} (hs : Spent h state d start attempts limit) :
    grind h state d start attempts = .error (.invalid (.attempts d.bits limit)) := by
  rcases grind_cases h state d start attempts with ⟨c, hc, -⟩ | ⟨limit', hs', hg⟩
  · exact absurd hs hc.not_spent
  · rw [hg, Option.mem_unique hs.mem hs'.mem]

theorem grind_eq_ok_iff {b : Bytes} :
    grind h state d start attempts = .ok b ↔
      ∃ c, Stops h state d start attempts c ∧ nonce c = .ok b := by
  constructor
  · intro hg
    rcases grind_cases h state d start attempts with ⟨c, hc, hn⟩ | ⟨limit, -, hn⟩
    · exact ⟨c, hc, hn ▸ hg⟩
    · cases hn.symm.trans hg
  · rintro ⟨c, hc, hn⟩
    rw [grind_of_stops hc, hn]

theorem grind_eq_error_iff {e : Error} :
    grind h state d start attempts = .error e ↔
      (∃ c, Tries h state d start attempts c ∧ nonce c = .error e) ∨
        ∃ limit, Spent h state d start attempts limit ∧ e = .invalid (.attempts d.bits limit) := by
  constructor
  · intro hg
    rcases grind_cases h state d start attempts with ⟨c, hc, hn⟩ | ⟨limit, hs, hn⟩
    · exact .inl ⟨c, hc.toTries, hn ▸ hg⟩
    · exact .inr ⟨limit, hs, Except.error.inj (hg.symm.trans hn)⟩
  · rintro (⟨c, hc, hn⟩ | ⟨limit, hs, rfl⟩)
    · rw [grind_of_stops ⟨hc, not_fails_of_nonce_error hn⟩, hn]
    · exact grind_of_spent hs

theorem length_of_grind {b : Bytes} (hg : grind h state d start attempts = .ok b) :
    b.length = nonceSize := by
  obtain ⟨c, -, hn⟩ := grind_eq_ok_iff.mp hg
  obtain ⟨-, -, rfl⟩ := nonce_eq_ok_iff.mp hn
  exact Bytes.length_ofNatLE _ _

theorem Tries.start_nonneg {c : Int} (hc : Tries h state d start attempts c) (h0 : 0 ≤ c) :
    0 ≤ start := by
  by_contra hneg
  have hfail := hc.failed start le_rfl (by omega)
  exact hneg hfail.1

theorem fails_natCast_iff {n : Nat} (hn : n < 2 ^ 64) :
    Fails h state d n ↔
      leadingZeroBits (h.digest (state ++ Bytes.ofNatLE nonceSize n)) < d.bits := by
  rw [Fails, Int.toNat_natCast]
  constructor
  · intro hf
    exact hf.2.2
  · intro hf
    exact ⟨by omega, by omega, hf⟩

theorem stops_natCast_iff {c : Nat} (hc : c < 2 ^ 64) :
    Stops h state d start attempts c ↔
      0 ≤ start ∧ start ≤ c ∧ (∀ limit ∈ attempts, c - start < limit) ∧
        d.bits ≤ leadingZeroBits (h.digest (state ++ Bytes.ofNatLE nonceSize c)) ∧
        ∀ n : Nat, start ≤ n → n < c →
          leadingZeroBits (h.digest (state ++ Bytes.ofNatLE nonceSize n)) < d.bits := by
  constructor
  · intro hs
    refine ⟨hs.start_nonneg (by omega), hs.le, hs.left, ?_, ?_⟩
    · exact not_lt.mp (mt (fails_natCast_iff hc).mpr hs.ends)
    · intro n hn hlt
      exact (fails_natCast_iff (hlt.trans hc)).mp (hs.failed n hn (by omega))
  · rintro ⟨h0, hle, hleft, hmeets, hfirst⟩
    refine ⟨⟨hle, hleft, ?_⟩, mt (fails_natCast_iff hc).mp (not_lt.mpr hmeets)⟩
    intro n hn hlt
    obtain ⟨n, rfl⟩ := Int.eq_ofNat_of_zero_le (h0.trans hn)
    exact (fails_natCast_iff (by omega)).mpr (hfirst n hn (by omega))

end

/-- Why a search that tries all counters from zero on ends without a nonce. -/
def Exhausted (h : Hasher) (state : Bytes) (d : Difficulty) (attempts : Option Int) (e : Error) :
    Prop :=
  (∃ limit, attempts = some limit ∧ e = .invalid (.attempts d.bits limit) ∧
    ∀ n : Nat, (n : Int) < limit → meets h state d (Bytes.ofNatLE nonceSize n) = false) ∨
  e = .nonceTooLarge ∧
    ∀ n < 2 ^ (8 * nonceSize), meets h state d (Bytes.ofNatLE nonceSize n) = false

theorem meets_eq_false_of_fails {h : Hasher} {state : Bytes} {d : Difficulty} {n : Nat}
    (hf : Fails h state d n) : meets h state d (Bytes.ofNatLE nonceSize n) = false :=
  meets_eq_false_iff.mpr hf.2.2

theorem grind_spec (h : Hasher) (state : Bytes) (d : Difficulty) (attempts : Option Int) :
    match grind h state d 0 attempts with
    | .ok nonce => meets h state d nonce = true ∧ nonce.length = nonceSize
    | .error e => Exhausted h state d attempts e := by
  cases hg : grind h state d 0 attempts with
  | ok b =>
    obtain ⟨c, hc, hn⟩ := grind_eq_ok_iff.mp hg
    exact ⟨Bool.eq_true_of_not_eq_false (mt (fails_iff_of_nonce hn).mpr hc.ends),
      length_of_grind hg⟩
  | error e =>
    rcases grind_eq_error_iff.mp hg with ⟨c, hc, hn⟩ | ⟨limit, hs, rfl⟩
    · rcases nonce_eq_error_iff.mp hn with ⟨hneg, -⟩ | ⟨hge, rfl⟩
      · exact absurd hc.le hneg.not_ge
      · refine .inr ⟨rfl, ?_⟩
        intro n hlt
        have hlt : n < 2 ^ 64 := hlt
        exact meets_eq_false_of_fails (hc.failed n (by omega) (by omega))
    · refine .inl ⟨limit, hs.mem, rfl, ?_⟩
      intro n hlt
      exact meets_eq_false_of_fails (hs.failed n (by omega) (by omega))

/-- The nonce found is that of the first counter that meets the difficulty. Without one the search
says why it ended: at a counter out of range, or for want of attempts, which is at once where none
are given. -/
theorem grind_finds_first (h : Hasher) (state : Bytes) (d : Difficulty) (start : Int)
    (attempts : Option Int) :
    (∀ b, grind h state d start attempts = .ok b ↔
      ∃ c : Nat, b = Bytes.ofNatLE nonceSize c ∧ c < 2 ^ 64 ∧ 0 ≤ start ∧ start ≤ c ∧
        (∀ limit ∈ attempts, c - start < limit) ∧
        d.bits ≤ leadingZeroBits (h.digest (state ++ Bytes.ofNatLE nonceSize c)) ∧
        ∀ n : Nat, start ≤ n → n < c →
          leadingZeroBits (h.digest (state ++ Bytes.ofNatLE nonceSize n)) < d.bits) ∧
    (∀ e, grind h state d start attempts = .error e ↔
      (∃ c, Tries h state d start attempts c ∧
        (c < 0 ∧ e = .nonceNegative ∨ 2 ^ 64 ≤ c ∧ e = .nonceTooLarge)) ∨
      ∃ limit ∈ attempts, e = .invalid (.attempts d.bits limit) ∧
        ∀ n, start ≤ n → n < start + limit → Fails h state d n) ∧
    ∀ limit ∈ attempts, limit ≤ 0 →
      grind h state d start attempts = .error (.invalid (.attempts d.bits limit)) := by
  refine ⟨?_, ?_, ?_⟩
  · intro b
    rw [grind_eq_ok_iff]
    constructor
    · rintro ⟨c, hs, hn⟩
      obtain ⟨h0, hlt, rfl⟩ := nonce_eq_ok_iff.mp hn
      obtain ⟨c, rfl⟩ := Int.eq_ofNat_of_zero_le h0
      have hc : c < 2 ^ 64 := by omega
      exact ⟨c, rfl, hc, (stops_natCast_iff hc).mp hs⟩
    · rintro ⟨c, rfl, hc, hs⟩
      exact ⟨c, (stops_natCast_iff hc).mpr hs, nonce_eq_ok_iff.mpr ⟨by omega, by omega, rfl⟩⟩
  · intro e
    simp only [grind_eq_error_iff, nonce_eq_error_iff]
    constructor
    · rintro (hc | ⟨limit, hs, rfl⟩)
      · exact .inl hc
      · exact .inr ⟨limit, hs.mem, rfl, hs.failed⟩
    · rintro (hc | ⟨limit, hmem, rfl, hfailed⟩)
      · exact .inl hc
      · exact .inr ⟨limit, ⟨hmem, hfailed⟩, rfl⟩
  · intro limit hmem hle
    exact grind_of_spent ⟨hmem, fun n hn hlt => by omega⟩

theorem grind_finds_first_at_end :
    let h : Hasher := ⟨.sha256, fun _ => List.replicate digestSize 255⟩
    let d : Difficulty := ⟨1, by decide⟩
    let start : Int := 2 ^ 64 - 2
    grind h [] d start (some 2) = .error (.invalid (.attempts 1 2)) ∧
      grind h [] d start (some 3) = .error .nonceTooLarge ∧
      grind h [] d (-1) (some 0) = .error (.invalid (.attempts 1 0)) ∧
      grind h [] d (-1) none = .error .nonceNegative := by
  intro h d start
  have hfails (n : Int) (hn : start ≤ n) (hlt : n < start + 2) : Fails h [] d n := by
    have hbits : leadingZeroBits (List.replicate digestSize 255) < 1 := by decide
    exact ⟨by omega, by omega, hbits⟩
  have hnone (n : Int) (hn : -1 ≤ n) (hlt : n < -1) : Fails h [] d n := by omega
  refine ⟨?_, ?_, ?_, ?_⟩
  · exact ((grind_finds_first h [] d start (some 2)).2.1 _).mpr (.inr ⟨2, rfl, rfl, hfails⟩)
  · exact ((grind_finds_first h [] d start (some 3)).2.1 _).mpr
      (.inl ⟨2 ^ 64, ⟨by omega, by simp [start], fun n hn hlt => hfails n hn (by omega)⟩,
        .inr ⟨le_rfl, rfl⟩⟩)
  · exact (grind_finds_first h [] d (-1) (some 0)).2.2 0 rfl le_rfl
  · exact ((grind_finds_first h [] d (-1) none).2.1 _).mpr
      (.inl ⟨-1, ⟨le_rfl, by simp, hnone⟩, .inl ⟨by decide, rfl⟩⟩)

end HintScript.Work
