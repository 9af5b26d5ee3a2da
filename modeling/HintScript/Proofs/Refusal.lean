import HintScript.Proofs.Malleability

/-! Hints, work and paths that do not pass are rejections, which the verifier of the query phase
answers with `false`. Two things raise an error, in a proof with as many openings as there are
queries: a root that is no digest, and a number in the work's witness that no message can name.
-/

set_option autoImplicit false

namespace HintScript

namespace Extraction

variable {hint : Hint} {digest : Bytes} {n : WordCount} {e : Error}

theorem rejected_of_unpack (h : unpack digest hint n = .error e) :
    ∃ cause, e = .rejected cause := by
  unfold unpack at h
  by_cases hu : hint.units.length ≠ n.count
  · rw [if_pos hu] at h
    cases h
    exact ⟨_, rfl⟩
  rw [if_neg hu] at h
  by_cases ht : hint.tail.length ≠ digestSize - Word.size * n.count
  · rw [if_pos ht] at h
    cases h
    exact ⟨_, rfl⟩
  rw [if_neg ht] at h
  cases hr : readUnits hint.units with
  | error cause =>
    rw [hr] at h
    cases h
    exact ⟨_, rfl⟩
  | ok pairs =>
    simp only [hr] at h
    by_cases hd : (pairs.map Prod.fst).flatten ++ hint.tail ≠ digest
    · rw [if_pos hd] at h
      cases h
      exact ⟨_, rfl⟩
    · rw [if_neg hd] at h
      cases h

theorem rejected_of_unpackElement (hd : digest.length = digestSize)
    (h : unpackElement digest hint = .error e) : ∃ cause, e = .rejected cause := by
  cases hu : unpack digest hint .four with
  | error e' =>
    rw [unpackElement, hu] at h
    cases h
    exact rejected_of_unpack hu
  | ok values =>
    have hunits := units_of_unpack hu
    obtain ⟨x, hx⟩ := (exists_unpackElement_iff hunits hd).mpr ⟨values, hu⟩
    cases h.symm.trans hx

theorem rejected_of_unpackQueries {w : Width} {order : BitOrder}
    (h : unpackQueries digest hint w order = .error e) : ∃ cause, e = .rejected cause := by
  cases hu : unpack digest hint .five with
  | error e' =>
    rw [unpackQueries, hu] at h
    cases h
    exact rejected_of_unpack hu
  | ok values =>
    rw [unpackQueries, hu] at h
    cases h

end Extraction

theorem Merkle.verify_returns {h : Hasher} (hw : h.Wide) (root : Bytes) {w : Width} {o : Opening}
    {n : Nat} (hn : n < 2 ^ w.bits) (hs : o.siblings.length = w.bits) (log : List Warning) :
    ∃ b log', verify h root w.bits o n log = .ok b log' := by
  rw [verify_eq hw hn hs]
  split
  · exact ⟨true, log, rfl⟩
  · exact ⟨false, _, rfl⟩

namespace QueryPhase

variable {h : Hasher} {c : Config} {p : Proof}

/-- The work is looked at, since the hint before it is accepted, and cannot be refused in words. -/
def Proof.Unwritable (h : Hasher) (c : Config) (p : Proof) : Prop :=
  (∃ x, Extraction.unpackElement (h.digest (h.digest (c.seed ++ p.root) ++ Channel.drawMark))
    p.alphaHint = .ok x) ∧ p.witness.Unwritable c.difficulty

theorem checkQueries_cases (hw : h.Wide) (s : Bytes) (hint : Hint) (c : Config) :
    (∃ cause s', Channel.checkQueries h hint c.width.bits c.order s =
      .error (.rejected cause) s') ∨
    ∃ queries s', Channel.checkQueries h hint c.width.bits c.order s = .ok queries s' ∧
      ∀ q ∈ queries, 0 ≤ q ∧ q < 2 ^ c.width.bits := by
  rw [Channel.checkQueries_eq]
  cases hq : Extraction.unpackQueries (h.digest (s ++ Channel.drawMark)) hint c.width c.order with
  | error e =>
    obtain ⟨cause, rfl⟩ := Extraction.rejected_of_unpackQueries hq
    exact .inl ⟨cause, _, rfl⟩
  | ok queries =>
    obtain ⟨values, hvalues, -⟩ := Extraction.unpackQueries_eq_ok_iff.mp hq
    obtain ⟨-, hrange⟩ :=
      Extraction.unpackQueries_bounds (Extraction.units_of_unpack hvalues) (hw _) hq
    exact .inr ⟨queries, _, rfl, hrange⟩

theorem transcript_cases (hw : h.Wide) (c : Config) (p : Proof) :
    (p.Unwritable h c ∧
      ∃ s', transcript h c p (h.digest (c.seed ++ p.root)) = .error .textTooLong s') ∨
    ¬ p.Unwritable h c ∧
      ((∃ cause s', transcript h c p (h.digest (c.seed ++ p.root)) = .error (.rejected cause) s') ∨
        ∃ queries s', transcript h c p (h.digest (c.seed ++ p.root)) = .ok queries s' ∧
          ∀ q ∈ queries, 0 ≤ q ∧ q < 2 ^ c.width.bits) := by
  unfold transcript Proof.Unwritable
  simp only [bind, EStateM.bind, Channel.checkElement_eq]
  cases hx : Extraction.unpackElement (h.digest (h.digest (c.seed ++ p.root) ++ Channel.drawMark))
      p.alphaHint with
  | error e =>
    obtain ⟨cause, rfl⟩ := Extraction.rejected_of_unpackElement (hw _) hx
    refine .inr ⟨?_, .inl ⟨cause, _, rfl⟩⟩
    rintro ⟨⟨x, hok⟩, -⟩
    cases hok
  | ok x =>
    simp only [Channel.absorbElement_eq hw, get, getThe, MonadStateOf.get, EStateM.get]
    generalize h.digest (h.digest (h.digest (c.seed ++ p.root)) ++
      Commitment.nest h.digest p.claimed.items) = s
    rcases Work.verify_cases h s p.nonce c.difficulty p.witness with
      hok | ⟨hu, cause, hno⟩ | ⟨hu, hlong⟩
    · have hu : ¬ p.witness.Unwritable c.difficulty := by
        intro hu
        cases hok.symm.trans (Work.verify_eq_textTooLong_iff.mpr hu)
      simp only [hok, ofExcept_ok, set, MonadStateOf.set, EStateM.set]
      exact .inr ⟨fun hall => hu hall.2, checkQueries_cases hw _ _ c⟩
    · simp only [hno, ofExcept_error]
      exact .inr ⟨fun hall => hu hall.2, .inl ⟨_, _, rfl⟩⟩
    · simp only [hlong, ofExcept_error]
      exact .inl ⟨⟨⟨x, rfl⟩, hu⟩, _, rfl⟩

theorem verifyOpenings_returns (hw : h.Wide) (root : Bytes) (i : Nat)
    {ps : List (Int × Merkle.Opening)} (hps : ∀ q ∈ ps, 0 ≤ q.1 ∧ q.1 < 2 ^ c.width.bits)
    (log : List Warning) : ∃ b log', verifyOpenings h c root i ps log = .ok b log' := by
  induction ps generalizing i log with
  | nil => exact ⟨true, log, rfl⟩
  | cons q ps ih =>
    obtain ⟨query, o⟩ := q
    obtain ⟨hquery, hrest⟩ := List.forall_mem_cons.mp hps
    obtain ⟨n, rfl⟩ := Int.eq_ofNat_of_zero_le hquery.1
    rw [verifyOpenings]
    by_cases hs : o.siblings.length = c.width.bits
    · have hn : n < 2 ^ c.width.bits := Int.ofNat_lt.mp (by simpa using hquery.2)
      obtain ⟨b, log₁, hv⟩ := Merkle.verify_returns hw root hn hs log
      simp only [hs, ne_eq, not_true_eq_false, if_false, bind, EStateM.bind, hv]
      cases b with
      | true => exact ih (i + 1) hrest log₁
      | false => exact ⟨false, _, rfl⟩
    · simp only [hs, ne_eq, not_false_eq_true, if_true]
      exact ⟨false, _, rfl⟩

theorem verify_of_openings (hcount : p.openings.length ≠ queryCount) (log : List Warning) :
    verify h c p log = .ok false (log ++ [.openingCount queryCount p.openings.length]) := by
  unfold verify
  simp only [hcount, ne_eq, not_false_eq_true, if_true]
  rfl

theorem verify_of_not_root (hcount : p.openings.length = queryCount)
    (hroot : p.root.length ≠ digestSize) (log : List Warning) :
    verify h c p log = .error (.invalid (.commitmentSize p.root.length)) log := by
  unfold verify
  simp only [hcount, ne_eq, not_true_eq_false, if_false, absorb_eq_error hroot]
  rfl

theorem verify_of_root (hw : h.Wide) (hcount : p.openings.length = queryCount)
    (hroot : p.root.length = digestSize) (log : List Warning) :
    (p.Unwritable h c ∧ verify h c p log = .error .textTooLong log) ∨
      ¬ p.Unwritable h c ∧ ∃ b log', verify h c p log = .ok b log' := by
  unfold verify
  simp only [hcount, ne_eq, not_true_eq_false, if_false, Channel.absorb_eq hroot]
  rcases transcript_cases hw c p with ⟨hu, s, ht⟩ | ⟨hu, ⟨cause, s, ht⟩ | ⟨queries, s, ht, hrange⟩⟩
  · rw [ht]
    exact .inl ⟨hu, rfl⟩
  · rw [ht]
    exact .inr ⟨hu, false, _, rfl⟩
  · rw [ht]
    exact .inr ⟨hu, verifyOpenings_returns hw p.root 0
      (fun q hq => hrange q.1 (List.of_mem_zip hq).1) log⟩

/-- For which proofs the verifier returns an answer and the run of the script an outcome, and what
is raised for the others. -/
theorem verify_returns_iff (hw : h.Wide) (c : Config) (p : Proof) (log : List Warning) :
    ((∃ b log', verify h c p log = .ok b log') ↔
      (p.openings.length = queryCount → p.root.length = digestSize ∧ ¬ p.Unwritable h c)) ∧
    (p.openings.length = queryCount → p.root.length ≠ digestSize →
      verify h c p log = .error (.invalid (.commitmentSize p.root.length)) log) ∧
    (p.openings.length = queryCount → p.root.length = digestSize → p.Unwritable h c →
      verify h c p log = .error .textTooLong log) ∧
    ((∃ outcome log', run h c p log = .ok outcome log') ↔ p.script.Fits) ∧
    (¬ p.script.Fits → run h c p log = .error .lengthTooLarge log) := by
  refine ⟨⟨?_, ?_⟩, fun hcount hroot => verify_of_not_root hcount hroot log, ?_, ⟨?_, ?_⟩,
    fun hf => run_of_not_fits hf log⟩
  · rintro ⟨b, log', hreturns⟩ hcount
    by_cases hroot : p.root.length = digestSize
    · rcases verify_of_root hw hcount hroot log with ⟨-, hraises⟩ | ⟨hu, -⟩
      · cases hraises.symm.trans hreturns
      · exact ⟨hroot, hu⟩
    · cases (verify_of_not_root hcount hroot log).symm.trans hreturns
  · intro hgood
    by_cases hcount : p.openings.length = queryCount
    · obtain ⟨hroot, hu⟩ := hgood hcount
      rcases verify_of_root hw hcount hroot log with ⟨hu', -⟩ | ⟨-, hreturns⟩
      · exact absurd hu' hu
      · exact hreturns
    · exact ⟨false, _, verify_of_openings hcount log⟩
  · intro hcount hroot hu
    rcases verify_of_root hw hcount hroot log with ⟨-, hraises⟩ | ⟨hu', -⟩
    · exact hraises
    · exact absurd hu hu'
  · rintro ⟨outcome, log', hreturns⟩
    by_contra hf
    cases (run_of_not_fits hf log).symm.trans hreturns
  · exact fun hf => ⟨_, run_of_fits hf log⟩

/-- Nothing but the root has a length that is asked for, and yet there is an answer. -/
theorem verify_returns_iff_empty :
    let c : Config := ⟨List.replicate 32 0, ⟨9, by decide⟩, ⟨1, by decide, by decide⟩, .low, rfl⟩
    let p : Proof := ⟨List.replicate 32 0, ⟨[], []⟩, 0, [], ⟨[], some (-1)⟩, ⟨[], []⟩,
      List.replicate 5 ⟨0, []⟩⟩
    Hasher.sha256.Wide ∧ p.openings.length = queryCount ∧ p.root.length = digestSize ∧
      (∃ b log, verify .sha256 c p [] = .ok b log) ∧
      ∃ outcome log, run .sha256 c p [] = .ok outcome log := by
  intro c p
  obtain ⟨hverify, -, -, hrun, -⟩ := verify_returns_iff Hasher.sha256_wide c p []
  have hu : ¬ p.Unwritable .sha256 c := by
    rintro ⟨-, hsuffix, -⟩
    exact absurd hsuffix (by decide)
  exact ⟨Hasher.sha256_wide, rfl, rfl, hverify.mpr fun _ => ⟨rfl, hu⟩, hrun.mpr (by decide)⟩

/-- An empty root raises an error, where any other malformed part of a proof is answered. -/
theorem verify_emptyRoot_raises :
    let c : Config := ⟨List.replicate 32 0, ⟨0, by decide⟩, ⟨1, by decide, by decide⟩, .low, rfl⟩
    let p : Proof := ⟨[], ⟨[], []⟩, 0, [], ⟨[], none⟩, ⟨[], []⟩, List.replicate 5 ⟨0, [[]]⟩⟩
    Hasher.sha256.Wide ∧ verify .sha256 c p [] = .error (.invalid (.commitmentSize 0)) [] ∧
      ¬ ∃ b log, verify .sha256 c p [] = .ok b log := by
  intro c p
  have hraises : verify .sha256 c p [] = .error (.invalid (.commitmentSize 0)) [] := rfl
  refine ⟨Hasher.sha256_wide, hraises, ?_⟩
  rintro ⟨b, log, hreturns⟩
  cases hraises.symm.trans hreturns

end QueryPhase

end HintScript
