import HintScript.Proofs.Agreement
import HintScript.Proofs.Limits
import HintScript.Proofs.Search
import HintScript.QueryPhase

set_option autoImplicit false

namespace HintScript

open Number Script Commitment

namespace Extraction

variable {digest : Bytes}

theorem exists_extractElement (hd : digest.length = digestSize) :
    ∃ x hint, extractElement digest = .ok (x, hint) ∧ hint.units.length = 4 ∧
      unpackElement digest hint = .ok x := by
  obtain ⟨values, hint, hextract, hunits, hunpack⟩ := unpack_extract (n := .four) hd
  obtain ⟨hlen, -⟩ := unpack_bounds hunits hd hunpack
  rw [toOption_eq_some_iff] at hunpack
  match values, hlen with
  | [a, b, c, d], _ =>
    refine ⟨QM31.ofInts a b c d, hint, ?_, hunits, ?_⟩
    · rw [extractElement, hextract]
      rfl
    · rw [unpackElement, hunpack]
      rfl

theorem exists_extractQueries (hd : digest.length = digestSize) (w : Width) (order : BitOrder) :
    ∃ queries hint, extractQueries digest w order = .ok (queries, hint) ∧ hint.units.length = 5 ∧
      unpackQueries digest hint w order = .ok queries := by
  obtain ⟨values, hint, hextract, hunits, hunpack⟩ := unpack_extract (n := .five) hd
  rw [toOption_eq_some_iff] at hunpack
  exact ⟨_, hint, extractQueries_eq hextract w order, hunits,
    unpackQueries_eq_ok_iff.mpr ⟨values, hunpack, rfl⟩⟩

end Extraction

namespace Channel

variable {h : Hasher}

theorem exists_squeezeElement (hw : h.Wide) (s : Bytes) :
    ∃ x hint, squeezeElement h s = .ok (x, hint) (h.digest s) ∧ hint.units.length = 4 ∧
      Extraction.unpackElement (h.digest (s ++ drawMark)) hint = .ok x := by
  obtain ⟨x, hint, hextract, haccepted⟩ :=
    Extraction.exists_extractElement (hw (s ++ drawMark))
  refine ⟨x, hint, ?_, haccepted⟩
  change (ofExcept (Extraction.extractElement (h.digest (s ++ drawMark))) : Channel _)
    (h.digest s) = _
  rw [hextract]
  rfl

theorem exists_squeezeQueries (hw : h.Wide) (w : Width) (order : BitOrder) (s : Bytes) :
    ∃ queries hint, squeezeQueries h w.bits order s = .ok (queries, hint) (h.digest s) ∧
      hint.units.length = 5 ∧
      Extraction.unpackQueries (h.digest (s ++ drawMark)) hint w order = .ok queries := by
  obtain ⟨queries, hint, hextract, haccepted⟩ :=
    Extraction.exists_extractQueries (hw (s ++ drawMark)) w order
  refine ⟨queries, hint, ?_, haccepted⟩
  unfold squeezeQueries
  rw [ofLogn_bits, ofExcept_ok_bind]
  change (ofExcept (Extraction.extractQueries (h.digest (s ++ drawMark)) w order) : Channel _)
    (h.digest s) = _
  rw [hextract]
  rfl

end Channel

namespace QueryPhase

theorem exists_openings {t : Merkle.Tree} {queries : List Int} {s : Bytes}
    (h : ∀ q ∈ queries, ∃ o, t.openAt q = .ok o) :
    ∃ openings, (queries.mapM fun q => ofExcept (t.openAt q) : Channel _) s = .ok openings s ∧
      openings.length = queries.length ∧ ∀ p ∈ queries.zip openings, t.openAt p.1 = .ok p.2 := by
  induction queries with
  | nil => exact ⟨[], rfl, rfl, by simp⟩
  | cons q queries ih =>
    obtain ⟨⟨o, ho⟩, hrest⟩ := List.forall_mem_cons.mp h
    obtain ⟨openings, hrun, hlen, hall⟩ := ih hrest
    refine ⟨o :: openings, ?_, ?_, ?_⟩
    · rw [List.mapM_cons, ho, ofExcept_ok_bind]
      simp only [bind, EStateM.bind, hrun]
      rfl
    · rw [List.length_cons, hlen, List.length_cons]
    · rw [List.zip_cons_cons]
      exact List.forall_mem_cons.mpr ⟨ho, hall⟩

section

variable {h : Hasher} {c : Config} {leaves : List QM31} {t : Merkle.Tree}

theorem length_root (hw : h.Wide) (hl : leaves.length = c.width.leaves)
    (ht : Merkle.Tree.build h leaves = .ok t) : t.root.length = digestSize := by
  have hpos := c.width.pos
  have hpow : (0 : Int) < 2 ^ c.width.bits := Int.pow_pos (by decide)
  obtain ⟨o, -, hsiblings, -, hpath⟩ := Merkle.exists_openAt hw hl ht (Int.le_refl 0) hpow
  rw [← hpath]
  exact Merkle.length_climb hw (List.ne_nil_of_length_pos (by rw [hsiblings]; exact hpos))

theorem answer_of_grind_error (hw : h.Wide) (hroot : t.root.length = digestSize) {claimed : QM31}
    {attempts : Option Int} {e : Error}
    (hg : Work.grind h (workState h c t.root claimed) c.difficulty 0 attempts = .error e) :
    ∃ s, answer h c t claimed attempts c.seed = .error e s := by
  obtain ⟨x, hint, halpha, -, -⟩ :=
    Channel.exists_squeezeElement hw (h.digest (c.seed ++ t.root))
  unfold workState at hg
  unfold answer
  simp only [bind, EStateM.bind, Channel.absorb_eq hroot, halpha, Channel.absorbElement_eq hw, get,
    getThe, MonadStateOf.get, EStateM.get, hg]
  exact ⟨_, rfl⟩

theorem answer_of_grind_ok (hw : h.Wide) (hl : leaves.length = c.width.leaves)
    (ht : Merkle.Tree.build h leaves = .ok t) {claimed : QM31} {attempts : Option Int}
    {nonce : Bytes}
    (hg : Work.grind h (workState h c t.root claimed) c.difficulty 0 attempts = .ok nonce)
    (hmeets : Work.meets h (workState h c t.root claimed) c.difficulty nonce = true) :
    ∃ p s, answer h c t claimed attempts c.seed = .ok p s ∧
      p.root = t.root ∧ p.claimed = claimed ∧ p.nonce = nonce ∧
      (∀ o ∈ p.openings, ∀ s ∈ o.siblings, s.length = digestSize) ∧
      ∃ hp : p.Shaped c, p.Passes h hp := by
  have hroot := length_root hw hl ht
  obtain ⟨x, alphaHint, halpha, hunits, hunpack⟩ :=
    Channel.exists_squeezeElement hw (h.digest (c.seed ++ t.root))
  obtain ⟨witness, hof, hmsb, hverify⟩ := Work.verify_of_meets hw hmeets
  obtain ⟨queries, queriesHint, hqueries, hunits', hunpack'⟩ :=
    Channel.exists_squeezeQueries hw c.width c.order (h.digest (workState h c t.root claimed))
  obtain ⟨hcount, hrange⟩ := Extraction.unpackQueries_bounds hunits' (hw _) hunpack'
  have hopen (q : Int) (hq : q ∈ queries) :=
    Merkle.exists_openAt hw hl ht (hrange q hq).1 (hrange q hq).2
  obtain ⟨openings, hopenings, hlen, hall⟩ := exists_openings
    (s := h.digest (h.digest (workState h c t.root claimed)))
    fun q hq => (hopen q hq).imp fun _ ho => ho.1
  have hzip : ∀ q ∈ queries.zip openings, q.2.siblings.length = c.width.bits ∧
      (∀ s ∈ q.2.siblings, s.length = digestSize) ∧
      Merkle.climb h (nest h.digest q.2.leaf.items) q.1.toNat q.2.siblings = t.root := by
    intro q hq
    obtain ⟨o, ho, hspec⟩ := hopen q.1 (List.of_mem_zip hq).1
    cases ho.symm.trans (hall q hq)
    exact hspec
  let p : Proof := ⟨t.root, alphaHint, claimed, nonce, witness, queriesHint, openings⟩
  have hp : p.Shaped c :=
    ⟨hunits, hunits', hmsb, hlen.trans hcount,
      forall_of_forall_zip (Nat.le_of_eq hlen) fun q hq => (hzip q hq).1⟩
  refine ⟨p, h.digest (h.digest (workState h c t.root claimed)), ?_, rfl, rfl, rfl,
    forall_of_forall_zip (Nat.le_of_eq hlen) fun q hq => (hzip q hq).2.1, hp,
    ⟨hroot, ⟨x, hunpack⟩, hverify, queries, hunpack', fun q hq => (hzip q hq).2.2⟩⟩
  · unfold workState at hg hof hverify hqueries hopenings
    unfold answer
    simp only [bind, EStateM.bind, Channel.absorb_eq hroot, halpha, Channel.absorbElement_eq hw, get,
      getThe, MonadStateOf.get, EStateM.get, hg, hof, hverify, ofExcept_ok, set, MonadStateOf.set,
      EStateM.set, hqueries, hopenings]
    rfl

theorem prove_eq (hl : leaves.length = c.width.leaves)
    (ht : Merkle.Tree.build h leaves = .ok t) (claimed : QM31) (attempts : Option Int) :
    prove h c leaves claimed attempts =
      match answer h c t claimed attempts c.seed with
      | .ok p _ => .ok p
      | .error e _ => .error e := by
  unfold prove
  simp only [hl, ne_eq, not_true_eq_false, if_false, ht, bind, Except.bind]
  cases answer h c t claimed attempts c.seed <;> rfl

end

theorem execute_of_passes {H : Bytes → Bytes} {c : Config} {p : Proof}
    (hH : ∀ data, (H data).length = digestSize) {hp : p.Shaped c}
    (h : p.Passes ⟨.sha256, H⟩ hp) (hn : p.nonce.length ≤ 488)
    (hs : ∀ o ∈ p.openings, Short o.siblings) :
    let s := p.script ++ script ⟨.sha256, H⟩ c
    (execute (shaEnv H) s).mainStack = [(p.hints hp).final H] ∧
      ((execute (shaEnv H) s).success = true ↔ isTrue ((p.hints hp).final H) = true) ∧
      ∀ o ∈ trace (shaEnv H) s, o.machine.stack.Within := by
  obtain ⟨m, hm, hstack, hbranches⟩ := run_of_passes hH h hn hs
  refine ⟨?_, ?_, fun o ho => within_of_mem_trace (h := ⟨.sha256, H⟩) hH hm ho⟩
  · rw [execute_of_run hm]
    exact congrArg Stacks.main hstack
  · rw [execute_success_iff]
    constructor
    · rintro ⟨m', hm', hend⟩
      cases hm.symm.trans hm'
      obtain ⟨-, x, hx, htrue⟩ := Machine.endFault_eq_none_iff.mp hend
      rw [hstack] at hx
      cases hx
      exact htrue
    · intro htrue
      exact ⟨m, hm, Machine.endFault_eq_none_iff.mpr ⟨hbranches, _, by rw [hstack], htrue⟩⟩

/-- Whatever the leaves and the claimed value, the prover fails only where its search for a nonce
does. Otherwise its proof is accepted by the verifier, and the script runs within the limits down
to the final channel state, so it succeeds where that is true. -/
theorem prove_complete {h : Hasher} (ho : h.opcode = .sha256) (hw : h.Wide) (c : Config)
    {leaves : List QM31} (hl : leaves.length = c.width.leaves) (claimed : QM31)
    (attempts : Option Int) :
    ∃ t, Merkle.Tree.build h leaves = .ok t ∧
      ((∃ e, prove h c leaves claimed attempts = .error e ∧
          Work.grind h (workState h c t.root claimed) c.difficulty 0 attempts = .error e ∧
          Work.Exhausted h (workState h c t.root claimed) c.difficulty attempts e) ∨
        ∃ p state, prove h c leaves claimed attempts = .ok p ∧
          p.root = t.root ∧ p.claimed = claimed ∧
          (∀ log, verify h c p log = .ok true log) ∧
          finalState h c p = .ok state ∧ state.length = digestSize ∧
          (∀ o ∈ trace ⟨h, {}⟩ (p.script ++ script h c), o.machine.stack.Within) ∧
          ∀ log, ∃ outcome log', run h c p log = .ok outcome log' ∧
            outcome.mainStack = [state] ∧ (outcome.success = true ↔ isTrue state = true)) := by
  obtain ⟨o, H⟩ := h
  obtain rfl : o = .sha256 := ho
  obtain ⟨t, ht⟩ : ∃ t, Merkle.Tree.build ⟨.sha256, H⟩ leaves = .ok t := ⟨_, Merkle.build_eq hw hl⟩
  have hprove := prove_eq hl ht claimed attempts
  have hspec := Work.grind_spec ⟨.sha256, H⟩ (workState ⟨.sha256, H⟩ c t.root claimed) c.difficulty
    attempts
  refine ⟨t, ht, ?_⟩
  cases hg : Work.grind ⟨.sha256, H⟩ (workState ⟨.sha256, H⟩ c t.root claimed) c.difficulty 0
    attempts with
  | error e =>
    rw [hg] at hspec
    obtain ⟨s, hanswer⟩ := answer_of_grind_error hw (length_root hw hl ht) hg
    rw [hanswer] at hprove
    exact .inl ⟨e, hprove, rfl, hspec⟩
  | ok nonce =>
    rw [hg] at hspec
    obtain ⟨p, s, hanswer, hroot, hclaimed, hnonce, hwide, hp, hpasses⟩ :=
      answer_of_grind_ok hw hl ht hg hspec.1
    rw [hanswer] at hprove
    have hn : p.nonce.length ≤ 488 := by
      rw [hnonce, hspec.2]
      decide
    have hs (o : Merkle.Opening) (ho : o ∈ p.openings) : Short o.siblings := by
      intro y hy
      rw [hwide o ho y hy]
      decide
    obtain ⟨hmain, hsuccess, hwithin⟩ := execute_of_passes hw hpasses hn hs
    refine .inr ⟨p, _, hprove, hroot, hclaimed,
      fun log => (verify_eq_ok_true_iff hw hp).mpr ⟨hpasses, rfl⟩,
      finalState_eq hw hpasses.root, hw _, hwithin, fun log => ?_⟩
    obtain ⟨log', hrun⟩ := run_of_fits (hpasses.fits hw hn hs) log
    exact ⟨_, log', hrun, hmain, hsuccess⟩

theorem prove_complete_ones :
    let leaves : List QM31 := [QM31.ofInts 5 0 0 6, QM31.ofInts 7 8 9 0]
    leaves.length = onesConfig.width.leaves ∧
      ∃ p outcome log, prove onesHasher onesConfig leaves 1 (some 1) = .ok p ∧
        verify onesHasher onesConfig p [] = .ok true [] ∧
        run onesHasher onesConfig p [] = .ok outcome log ∧ outcome.mainStack = [ones] ∧
        outcome.success = true := by
  intro leaves
  have hmeets (n : Nat) (state : Bytes) : Work.meets onesHasher state onesConfig.difficulty
      (Bytes.ofNatLE Work.nonceSize n) = true := rfl
  obtain ⟨t, ht, ⟨e, -, -, hnone⟩ | ⟨p, state, hp, hroot, -, hverify, hstate, -, -, hrun⟩⟩ :=
    prove_complete (h := onesHasher) rfl (fun _ => rfl) onesConfig
      (show leaves.length = onesConfig.width.leaves from rfl) 1 (some 1)
  · rcases hnone with ⟨limit, hlimit, -, hnone⟩ | ⟨-, hnone⟩
    · cases hlimit
      cases (hmeets 0 _).symm.trans (hnone 0 (by decide))
    · cases (hmeets 0 _).symm.trans (hnone 0 (by decide))
  · have hlen : p.root.length = digestSize := by
      rw [hroot]
      exact length_root (c := onesConfig) (fun _ => rfl) rfl ht
    cases (finalState_eq (h := onesHasher) (c := onesConfig) (fun _ => rfl) hlen).symm.trans hstate
    obtain ⟨outcome, log, hrun, hmain, hsuccess⟩ := hrun []
    exact ⟨rfl, p, outcome, log, hp, hverify [], hrun, hmain, hsuccess.mpr rfl⟩

end QueryPhase

end HintScript
