import HintScript.Proofs.Agreement
import HintScript.Proofs.Search

/-! What is hashed at one channel state.

The channel hashes the state alone when it moves on, the state and a mark when it draws, and the
state and a commitment when it absorbs. Work hashes the state and a nonce, of whatever length. It
hashes another string than the channel exactly if the nonce is not empty, not the mark and not as
long as a digest; the nonces that grinding finds are none of these.
-/

set_option autoImplicit false

namespace HintScript

namespace Channel

/-- The strings that the channel hashes at a state. -/
inductive HashesAt (state : Bytes) : Bytes → Prop where
  | advance : HashesAt state state
  | draw : HashesAt state (state ++ drawMark)
  | absorb {c : Bytes} (hc : c.length = digestSize) : HashesAt state (state ++ c)

/-- The digests that the operations of the channel give at a state: those drawn, and the states
that follow. -/
inductive Yields (h : Hasher) (state : Bytes) : Bytes → Prop where
  | advance {next : Bytes} (hn : advance h state = .ok () next) : Yields h state next
  | drawn {digest next : Bytes} (hn : draw h state = .ok digest next) : Yields h state digest
  | drawNext {digest next : Bytes} (hn : draw h state = .ok digest next) : Yields h state next
  | absorb {c next : Bytes} (hn : absorb h c state = .ok () next) : Yields h state next
  | absorbElement {x : QM31} {next : Bytes} (hn : absorbElement h x state = .ok () next) :
      Yields h state next

variable {h : Hasher} {state : Bytes}

theorem absorb_eq_ok_iff {c next : Bytes} :
    absorb h c state = .ok () next ↔ c.length = digestSize ∧ next = h.digest (state ++ c) := by
  by_cases hc : c.length = digestSize
  · rw [absorb_eq hc]
    constructor
    · rintro ⟨⟩
      exact ⟨hc, rfl⟩
    · rintro ⟨-, rfl⟩
      rfl
  · rw [QueryPhase.absorb_eq_error hc]
    constructor
    · intro hn
      cases hn
    · intro hn
      exact absurd hn.1 hc

/-- Every operation hashes one of the strings, and each of them is hashed by some operation. -/
theorem yields_iff (hw : h.Wide) {digest : Bytes} :
    Yields h state digest ↔ ∃ x, HashesAt state x ∧ h.digest x = digest := by
  constructor
  · intro hy
    cases hy with
    | advance hn =>
      cases hn
      exact ⟨_, .advance, rfl⟩
    | drawn hn =>
      cases hn
      exact ⟨_, .draw, rfl⟩
    | drawNext hn =>
      cases hn
      exact ⟨_, .advance, rfl⟩
    | absorb hn =>
      obtain ⟨hc, rfl⟩ := absorb_eq_ok_iff.mp hn
      exact ⟨_, .absorb hc, rfl⟩
    | @absorbElement x next hn =>
      rw [absorbElement_eq hw] at hn
      cases hn
      exact ⟨_, .absorb (Commitment.length_nest hw x.items_ne_nil), rfl⟩
  · rintro ⟨x, hx, rfl⟩
    cases hx with
    | advance => exact .advance rfl
    | draw => exact .drawn rfl
    | absorb hc => exact .absorb (absorb_eq hc)

end Channel

namespace Work

open Channel

/-- The nonce is empty, the mark, or as long as a commitment. -/
def Reserved (nonce : Bytes) : Prop :=
  nonce = [] ∨ nonce = drawMark ∨ nonce.length = digestSize

/-- After the state, exactly these nonces make a string that the channel hashes itself. -/
theorem hashesAt_append_iff (state : Bytes) {nonce : Bytes} :
    HashesAt state (state ++ nonce) ↔ Reserved nonce := by
  constructor
  · generalize hx : state ++ nonce = x
    intro h
    cases h with
    | advance => exact .inl (List.append_right_eq_self.mp hx)
    | draw => exact .inr (.inl (List.append_cancel_left hx))
    | absorb hc =>
      obtain rfl := List.append_cancel_left hx
      exact .inr (.inr hc)
  · rintro (rfl | rfl | hc)
    · rw [List.append_nil]
      exact .advance
    · exact .draw
    · exact .absorb hc

theorem not_reserved_of_length {nonce : Bytes} (hn : nonce.length = nonceSize) :
    ¬ Reserved nonce := by
  rintro (rfl | rfl | hc)
  · cases hn
  · cases hn
  · rw [hn] at hc
    cases hc

def Witness.shown (w : Witness) (d : Difficulty) : Except WorkError Bytes :=
  (w.middle d).map fun middle => List.replicate d.whole 0 ++ middle ++ w.suffix

theorem shown_of_verify {h : Hasher} (hw : h.Wide) {state nonce next : Bytes} {d : Difficulty}
    {w : Witness} (hv : verify h state nonce d w = .ok next) :
    w.shown d = .ok (h.digest (state ++ nonce)) := by
  obtain ⟨middle, hmiddle, he⟩ := exists_middle_of_verify hw hv
  rw [Witness.shown, hmiddle, ← he]
  rfl

/-- Accepted work is separate from the channel exactly if the nonce is not reserved. Then it shows a
digest of the channel only if two strings collide; otherwise it shows one. -/
theorem verify_separated {h : Hasher} (hw : h.Wide) {state nonce next : Bytes} {d : Difficulty}
    {w : Witness} (hv : verify h state nonce d w = .ok next) :
    ∃ shown, w.shown d = .ok shown ∧ shown = h.digest (state ++ nonce) ∧
      advance h state = .ok () next ∧
      ((∀ x, HashesAt state x → state ++ nonce ≠ x) ↔ ¬ Reserved nonce) ∧
      (¬ Reserved nonce → Yields h state shown →
        ∃ x, HashesAt state x ∧ x ≠ state ++ nonce ∧ h.digest x = h.digest (state ++ nonce)) ∧
      (Reserved nonce → Yields h state shown) ∧
      ∀ start attempts, grind h state d start attempts = .ok nonce → ¬ Reserved nonce := by
  have hseparate : (∀ x, HashesAt state x → state ++ nonce ≠ x) ↔ ¬ Reserved nonce := by
    rw [← hashesAt_append_iff state]
    constructor
    · intro hne hmem
      exact hne _ hmem rfl
    · rintro hno x hx rfl
      exact hno hx
  obtain rfl := eq_digest_of_verify hv
  refine ⟨_, shown_of_verify hw hv, rfl, rfl, hseparate, ?_, ?_, ?_⟩
  · intro hno hy
    obtain ⟨x, hx, he⟩ := (yields_iff hw).mp hy
    exact ⟨x, hx, (hseparate.mpr hno x hx).symm, he⟩
  · intro hres
    exact (yields_iff hw).mpr ⟨_, (hashesAt_append_iff state).mpr hres, rfl⟩
  · intro start attempts hg
    exact not_reserved_of_length (length_of_grind hg)

theorem verify_separated_counter :
    let digest : Bytes := [0, 0] ++ List.replicate 30 7
    let h : Hasher := ⟨.sha256, fun data => if data.length = 40 then digest else List.replicate 32 9⟩
    let state : Bytes := List.replicate 32 5
    let nonce : Bytes := Bytes.ofNatLE nonceSize 258
    let d : Difficulty := ⟨12, by decide⟩
    let w : Witness := ⟨List.replicate 30 7, some 0⟩
    verify h state nonce d w = .ok (List.replicate 32 9) ∧ w.shown d = .ok digest ∧
      ∀ x, HashesAt state x → state ++ nonce ≠ x := by
  intro digest h state nonce d w
  have hw : h.Wide := by
    intro data
    change (if data.length = 40 then digest else List.replicate 32 9).length = digestSize
    split
    · rfl
    · rfl
  have hv : verify h state nonce d w = .ok (List.replicate 32 9) := by decide
  obtain ⟨shown, hshown, rfl, -, hseparate, -⟩ := verify_separated hw hv
  exact ⟨hv, hshown, hseparate.mpr (not_reserved_of_length rfl)⟩

/-- With the mark as nonce, the work accepted shows the digest that the channel draws. -/
theorem verify_mark_shows_draw :
    let state : Bytes := List.replicate digestSize 0
    let d : Difficulty := ⟨0, by decide⟩
    ∃ w next digest, verify .sha256 state drawMark d w = .ok next ∧ w.shown d = .ok digest ∧
      draw .sha256 state = .ok digest next := by
  intro state d
  have hmeets : meets .sha256 state d drawMark = true := decide_eq_true (Nat.zero_le _)
  obtain ⟨w, -, -, hv⟩ := verify_of_meets Hasher.sha256_wide hmeets
  exact ⟨w, _, _, hv, shown_of_verify Hasher.sha256_wide hv, rfl⟩

end Work

end HintScript
