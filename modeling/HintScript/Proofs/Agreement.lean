import HintScript.Proofs.NormalForm
import HintScript.Proofs.QueryPhase

set_option autoImplicit false

namespace HintScript.QueryPhase

open Number Script Commitment

/-- The numbers of units, openings and siblings that the verifier asks for. -/
structure Proof.Shaped (c : Config) (p : Proof) : Prop where
  alpha : p.alphaHint.units.length = 4
  queries : p.queriesHint.units.length = 5
  msb : p.witness.msb.isSome = true ↔ c.difficulty.rem ≠ 0
  openings : p.openings.length = queryCount
  siblings : ∀ o ∈ p.openings, o.siblings.length = c.width.bits

def Block.ofOpening (o : Merkle.Opening) : Block := ⟨o.leaf.items, o.siblings⟩

def Proof.hints {c : Config} (p : Proof) (hp : p.Shaped c) : Hints c where
  root := p.root
  alpha := p.alphaHint
  claimed := p.claimed.items
  nonce := p.nonce
  suffix := p.witness.suffix
  msb := p.witness.msb.map encode
  queries := p.queriesHint
  blocks := p.openings.map Block.ofOpening
  alpha_units := hp.alpha
  claimed_length := rfl
  msb_isSome := by rw [Option.isSome_map]; exact hp.msb
  queries_units := hp.queries
  blocks_length := by rw [List.length_map]; exact hp.openings
  blocks_shaped := by
    intro b hb
    obtain ⟨o, ho, rfl⟩ := List.mem_map.mp hb
    exact ⟨rfl, hp.siblings o ho⟩

theorem fits_pushes {xs : List Bytes} (h : ∀ x ∈ xs, x.length ≤ 520) : (pushes xs).Fits := by
  refine List.forall_mem_map.mpr fun x hx => ?_
  exact (h x hx).trans_lt (by decide)

theorem pushes_append (xs ys : List Bytes) : pushes (xs ++ ys) = pushes xs ++ pushes ys :=
  List.map_append

theorem nums_eq_pushes (vs : List Int) : nums vs = pushes (vs.map encode) := by
  unfold nums pushes
  rw [List.map_map]
  rfl

theorem Proof.script_eq_pushes {c : Config} (p : Proof) (hp : p.Shaped c) :
    p.script = pushes (p.hints hp).items := by
  have hwork : p.witness.script p.nonce = pushes (p.hints hp).workItems := by
    unfold Work.Witness.script Hints.workItems
    rw [nums_eq_pushes, ← pushes_append]
    cases hm : p.witness.msb <;> simp [hints, hm]
  have hopenings (os : List Merkle.Opening) :
      os.flatMap Merkle.Opening.script =
        pushes ((os.map Block.ofOpening).flatMap Block.items) := by
    induction os with
    | nil => rfl
    | cons o os ih =>
      rw [List.flatMap_cons, ih, List.map_cons, List.flatMap_cons, pushes_append]
      congr 1
  unfold Proof.script
  rw [hwork, hopenings, nums_eq_pushes]
  simp only [Hints.items, pushes_append, List.map_reverse]
  rfl

section

variable {h : Hasher} {c : Config} {p : Proof}

/-- What the verifier asks of a proof of the right shape. -/
structure Proof.Passes (h : Hasher) (p : Proof) (hp : p.Shaped c) : Prop where
  root : p.root.length = digestSize
  alpha : ∃ x, Extraction.unpackElement
    (h.digest ((p.hints hp).afterRoot h.digest ++ Channel.drawMark)) p.alphaHint = .ok x
  work : Work.verify h ((p.hints hp).afterClaimed h.digest) p.nonce c.difficulty p.witness =
    .ok ((p.hints hp).afterWork h.digest)
  queries : ∃ queries, Extraction.unpackQueries
      (h.digest ((p.hints hp).afterWork h.digest ++ Channel.drawMark)) p.queriesHint c.width
        c.order = .ok queries ∧
    ∀ q ∈ queries.zip p.openings,
      Merkle.climb h (nest h.digest q.2.leaf.items) q.1.toNat q.2.siblings = p.root

theorem ofExcept_ok {α σ : Type} {a : α} {s : σ} :
    (ofExcept (.ok a : Except Error α) : EStateM Error σ α) s = .ok a s := rfl

theorem ofExcept_error {α σ : Type} {e : Error} {s : σ} :
    (ofExcept (.error e : Except Error α) : EStateM Error σ α) s = .error e s := rfl

theorem transcript_eq_ok_iff (hw : h.Wide) {s s' : Bytes} {queries : List Int} :
    transcript h c p s = .ok queries s' ↔
      (∃ x, Extraction.unpackElement (h.digest (s ++ Channel.drawMark)) p.alphaHint = .ok x) ∧
      ∃ next, Work.verify h (h.digest (h.digest s ++ nest h.digest p.claimed.items)) p.nonce
          c.difficulty p.witness = .ok next ∧
        Extraction.unpackQueries (h.digest (next ++ Channel.drawMark)) p.queriesHint c.width
          c.order = .ok queries ∧ s' = h.digest next := by
  unfold transcript
  simp only [bind, EStateM.bind, Channel.checkElement_eq]
  cases Extraction.unpackElement (h.digest (s ++ Channel.drawMark)) p.alphaHint with
  | error e => simp
  | ok x =>
    simp only [Channel.absorbElement_eq hw, get, getThe, MonadStateOf.get, EStateM.get]
    cases Work.verify h _ p.nonce c.difficulty p.witness with
    | error e => simp [ofExcept_error]
    | ok next =>
      simp only [ofExcept_ok, set, MonadStateOf.set, EStateM.set, Channel.checkQueries_eq,
        Except.ok.injEq, exists_eq', true_and, exists_eq_left']
      cases Extraction.unpackQueries (h.digest (next ++ Channel.drawMark)) p.queriesHint c.width
        c.order with
      | error e => simp
      | ok qs => simp [eq_comm]

theorem verifyOpenings_eq_ok_true_iff (hw : h.Wide) {root : Bytes}
    {ps : List (Int × Merkle.Opening)} {i : Nat} {log log' : List Warning}
    (hp : ∀ q ∈ ps, (0 ≤ q.1 ∧ q.1 < 2 ^ c.width.bits) ∧ q.2.siblings.length = c.width.bits) :
    verifyOpenings h c root i ps log = .ok true log' ↔
      (∀ q ∈ ps, Merkle.climb h (nest h.digest q.2.leaf.items) q.1.toNat q.2.siblings = root) ∧
        log' = log := by
  induction ps generalizing i log with
  | nil => simp [verifyOpenings, pure, EStateM.pure, eq_comm]
  | cons q ps ih =>
    obtain ⟨query, o⟩ := q
    obtain ⟨⟨⟨h0, hlt⟩, hs⟩, hps⟩ := List.forall_mem_cons.mp hp
    obtain ⟨n, rfl, hn⟩ := Merkle.exists_index h0 hlt
    have hverify : Merkle.verify h root c.width.bits o n log = _ := Merkle.verify_eq hw hn hs
    rw [List.forall_mem_cons, and_assoc, ← ih hps (i := i + 1), verifyOpenings]
    simp only [hs, ne_eq, not_true_eq_false, if_false, bind, EStateM.bind, hverify,
      Int.toNat_natCast]
    by_cases he : Merkle.climb h (nest h.digest o.leaf.items) n o.siblings = root
    · simp [he]
    · simp only [if_neg he]
      exact ⟨fun hr => (by cases hr), fun h => absurd h.1 he⟩

theorem absorb_eq_error {s root : Bytes} (hr : root.length ≠ digestSize) :
    Channel.absorb h root s = .error (.invalid (.commitmentSize root.length)) s := by
  simp only [Channel.absorb, hr, ne_eq, not_false_eq_true, if_true]
  rfl

theorem verify_eq_ok_true_iff (hw : h.Wide) (hp : p.Shaped c) {log log' : List Warning} :
    verify h c p log = .ok true log' ↔ p.Passes h hp ∧ log' = log := by
  unfold verify
  simp only [hp.openings, ne_eq, not_true_eq_false, if_false]
  by_cases hroot : p.root.length = digestSize
  · simp only [Channel.absorb_eq hroot]
    cases ht : transcript h c p (h.digest (c.seed ++ p.root)) with
    | error e s =>
      -- A proof that passes has a transcript.
      have hnot : ¬ p.Passes h hp := by
        rintro ⟨-, halpha, hwork, queries, hq, -⟩
        cases ht.symm.trans ((transcript_eq_ok_iff hw).mpr ⟨halpha, _, hwork, hq, rfl⟩)
      cases e <;> exact ⟨fun hr => (by cases hr), fun h => absurd h.1 hnot⟩
    | ok queries s =>
      obtain ⟨halpha, next, hwork, hq, -⟩ := (transcript_eq_ok_iff hw).mp ht
      obtain rfl := Work.eq_digest_of_verify hwork
      obtain ⟨-, hrange⟩ := Extraction.unpackQueries_bounds hp.queries (hw _) hq
      have hzip : ∀ q ∈ queries.zip p.openings,
          (0 ≤ q.1 ∧ q.1 < 2 ^ c.width.bits) ∧ q.2.siblings.length = c.width.bits := by
        intro q hmem
        obtain ⟨hfst, hsnd⟩ := List.of_mem_zip hmem
        exact ⟨hrange _ hfst, hp.siblings _ hsnd⟩
      rw [verifyOpenings_eq_ok_true_iff hw hzip]
      constructor
      · rintro ⟨hpaths, rfl⟩
        exact ⟨⟨hroot, halpha, hwork, queries, hq, hpaths⟩, rfl⟩
      · rintro ⟨⟨-, -, -, queries', hq', hpaths⟩, rfl⟩
        cases hq.symm.trans hq'
        exact ⟨hpaths, rfl⟩
  · simp only [absorb_eq_error hroot]
    exact ⟨fun hr => (by cases hr), fun h => absurd h.1.root hroot⟩

def workState (h : Hasher) (c : Config) (root : Bytes) (claimed : QM31) : Bytes :=
  h.digest (h.digest (h.digest (c.seed ++ root)) ++ nest h.digest claimed.items)

theorem finalState_eq (hw : h.Wide) (hroot : p.root.length = digestSize) :
    finalState h c p = .ok (h.digest (h.digest (workState h c p.root p.claimed))) := by
  unfold finalState
  simp only [bind, EStateM.bind, Channel.absorb_eq hroot, Channel.absorbElement_eq hw]
  rfl

end

section

variable {H : Bytes → Bytes} {c : Config} {p : Proof}

theorem forall_of_forall_zip {queries : List Int} {openings : List Merkle.Opening}
    {P : Merkle.Opening → Prop} (hlen : openings.length ≤ queries.length)
    (h : ∀ q ∈ queries.zip openings, P q.2) : ∀ o ∈ openings, P o := by
  intro o ho
  rw [← List.map_snd_zip hlen] at ho
  obtain ⟨q, hq, rfl⟩ := List.mem_map.mp ho
  exact h q hq

theorem Proof.Passes.length_items_le (hH : ∀ data, (H data).length = digestSize)
    {hp : p.Shaped c} (h : p.Passes ⟨.sha256, H⟩ hp) (hn : p.nonce.length ≤ 488)
    (hs : ∀ o ∈ p.openings, Short o.siblings) :
    ∀ y ∈ (p.hints hp).items, y.length ≤ 520 := by
  -- where the script asks for short items, a digest that is compared asks for no more
  obtain ⟨hroot, halpha, hwork, queries, hq, -⟩ := h
  obtain ⟨alpha, halpha⟩ := (Extraction.exists_unpackElement_iff hp.alpha (hH _)).mp halpha
  obtain ⟨values, hvalues, -⟩ := Extraction.unpackQueries_eq_ok_iff.mp hq
  have hdigest (y : Bytes) (hy : y.length ≤ digestSize) : y.length ≤ 520 := by
    unfold digestSize at hy
    omega
  have helement (x : QM31) (y : Bytes) (hy : y ∈ x.items) : y.length ≤ 520 := by
    obtain ⟨v, hv, rfl⟩ := List.mem_map.mp hy
    have hle := QM31.length_encode_component hv
    omega
  intro y hy
  simp only [Hints.items, List.mem_append] at hy
  rcases hy with ((((hy | hy) | hy) | hy) | hy) | hy
  · rw [List.mem_singleton.mp hy]
    exact hdigest _ (Nat.le_of_eq hroot)
  · exact hdigest y (Extraction.length_items_le_of_unpack hp.alpha (hH _) halpha y hy)
  · exact helement _ y hy
  · rcases List.mem_cons.mp hy with rfl | hy
    · exact Nat.le_trans hn (by decide)
    · rcases List.mem_cons.mp hy with rfl | hy
      · exact hdigest _ (Work.length_suffix_le_of_verify (h := ⟨.sha256, H⟩) hH hwork)
      · have hmsb := Work.readMsb_of_verify (h := ⟨.sha256, H⟩) hH hwork
        exact Nat.le_trans (Work.length_le_of_readMsb hmsb y hy) (by decide)
  · exact hdigest y (Extraction.length_items_le_of_unpack hp.queries (hH _) hvalues y hy)
  · obtain ⟨b, hb, hy⟩ := List.mem_flatMap.mp hy
    obtain ⟨o, ho, rfl⟩ := List.mem_map.mp (List.mem_reverse.mp hb)
    rcases List.mem_append.mp hy with hy | hy
    · exact helement _ y hy
    · exact Nat.le_trans (hs o ho y hy) (by decide)

theorem Proof.Passes.fits (hH : ∀ data, (H data).length = digestSize) {hp : p.Shaped c}
    (h : p.Passes ⟨.sha256, H⟩ hp) (hn : p.nonce.length ≤ 488)
    (hs : ∀ o ∈ p.openings, Short o.siblings) : p.script.Fits := by
  rw [p.script_eq_pushes hp]
  exact fits_pushes (h.length_items_le hH hn hs)

/-- The script accepts the proofs that pass and leave room beside a digest. -/
theorem accepted_hints_iff (hH : ∀ data, (H data).length = digestSize) (hp : p.Shaped c) :
    (∀ y ∈ (p.hints hp).items, y.length ≤ 520) ∧ (p.hints hp).Accepted H ↔
      p.Passes ⟨.sha256, H⟩ hp ∧ p.nonce.length ≤ 488 ∧ ∀ o ∈ p.openings, Short o.siblings := by
  have halpha := Extraction.exists_unpackElement_iff hp.alpha
    (hH ((p.hints hp).afterRoot H ++ Channel.drawMark))
  have hzip (queries : List Int) :
      (∀ q ∈ queries.zip (p.hints hp).blocks, q.2.LeadsTo H p.root q.1) ↔
        ∀ q ∈ queries.zip p.openings, Short q.2.siblings ∧
          Merkle.climb ⟨.sha256, H⟩ (nest H q.2.leaf.items) q.1.toNat q.2.siblings = p.root := by
    change (∀ q ∈ queries.zip (p.openings.map Block.ofOpening), _) ↔ _
    rw [List.zip_map_right, List.forall_mem_map]
    apply forall_congr'
    intro q
    apply imp_congr_right
    intro _
    exact ⟨fun h => ⟨h.siblings, h.path⟩, fun h => ⟨q.2.leaf.items_fit, h.1, h.2⟩⟩
  constructor
  · rintro ⟨-, h⟩
    have hroot := h.length_root hH
    obtain ⟨-, ha, -, hn, ⟨msb, hmsb, hwork⟩, queries, hq, hpaths⟩ := h
    obtain ⟨hlen, -⟩ := Extraction.unpackQueries_bounds hp.queries (hH _) hq
    obtain rfl := Work.eq_of_readMsb hmsb
    have hall := (hzip queries).mp hpaths
    refine ⟨⟨hroot, halpha.mpr ha, hwork, queries, hq, fun q hmem => (hall q hmem).2⟩, hn, ?_⟩
    exact forall_of_forall_zip (by rw [hlen, hp.openings]; decide) fun q hmem => (hall q hmem).1
  · rintro ⟨h, hn, hs⟩
    refine ⟨h.length_items_le hH hn hs, ?_⟩
    obtain ⟨hroot, ha, hwork, queries, hq, hpaths⟩ := h
    have hmsb := Work.readMsb_of_verify (h := ⟨.sha256, H⟩) hH hwork
    refine ⟨by change p.root.length ≤ 488; rw [hroot]; decide, halpha.mp ha, p.claimed.items_fit,
      hn, ⟨_, hmsb, hwork⟩, queries, hq, (hzip queries).mpr ?_⟩
    intro q hmem
    exact ⟨hs q.2 (List.of_mem_zip hmem).2, hpaths q hmem⟩

theorem run_of_passes (hH : ∀ data, (H data).length = digestSize) {hp : p.Shaped c}
    (h : p.Passes ⟨.sha256, H⟩ hp) (hn : p.nonce.length ≤ 488)
    (hs : ∀ o ∈ p.openings, Short o.siblings) :
    Machine.Leaves (shaEnv H) (p.script ++ script ⟨.sha256, H⟩ c) {}
      ⟨[(p.hints hp).final H], []⟩ := by
  obtain ⟨hitems, haccepted⟩ := (accepted_hints_iff hH hp).mpr ⟨h, hn, hs⟩
  rw [p.script_eq_pushes hp]
  exact run_of_accepted hH hitems haccepted

end

theorem executeReported_eq (env : Env) (s : Script) :
    executeReported env s = if s.Fits then .ok (execute env s) else .error .lengthTooLarge := by
  unfold executeReported Script.measure
  split <;> rfl

section

variable {h : Hasher} {c : Config} {p : Proof}

theorem fits_append_script : (p.script ++ script h c).Fits ↔ p.script.Fits :=
  List.forall_mem_append.trans (and_iff_left (script_plain c).fits)

theorem run_of_fits (hf : p.script.Fits) (log : List Warning) :
    ∃ log', run h c p log = .ok (execute ⟨h, {}⟩ (p.script ++ script h c)) log' := by
  unfold run
  rw [executeReported_eq, if_pos (fits_append_script.mpr hf), ofExcept_ok_bind]
  cases (execute ⟨h, {}⟩ (p.script ++ script h c)).failure with
  | none => exact ⟨log, rfl⟩
  | some failure => exact ⟨_, rfl⟩

theorem run_of_not_fits (hf : ¬ p.script.Fits) (log : List Warning) :
    run h c p log = .error .lengthTooLarge log := by
  unfold run
  rw [executeReported_eq, if_neg fun hall => hf (fits_append_script.mp hall)]
  rfl

theorem run_eq_ok {outcome : Outcome} {log log' : List Warning}
    (hrun : run h c p log = .ok outcome log') :
    outcome = execute ⟨h, {}⟩ (p.script ++ script h c) := by
  by_cases hf : p.script.Fits
  · obtain ⟨log₁, hok⟩ := run_of_fits (h := h) (c := c) hf log
    cases hrun.symm.trans hok
    rfl
  · cases hrun.symm.trans (run_of_not_fits hf log)

end

/-- The script and the verifier agree on proofs of the right shape, up to a final state that the
machine takes for false and to items that leave no room beside a digest. -/
theorem run_success_iff_verify {h : Hasher} (ho : h.opcode = .sha256) (hw : h.Wide) {c : Config}
    {p : Proof} (hp : p.Shaped c) (log : List Warning) :
    (p.script.Fits → ∃ outcome log', run h c p log = .ok outcome log') ∧
      ((∃ outcome log', run h c p log = .ok outcome log' ∧ outcome.success = true) ↔
        (∃ log', verify h c p log = .ok true log') ∧
        (∃ state, finalState h c p = .ok state ∧ isTrue state = true) ∧
        p.nonce.length ≤ 488 ∧ ∀ o ∈ p.openings, ∀ s ∈ o.siblings, s.length ≤ 488) ∧
      ∀ outcome log', run h c p log = .ok outcome log' → outcome.success = true →
        ∃ state, finalState h c p = .ok state ∧ outcome.mainStack = [state] := by
  obtain ⟨o, H⟩ := h
  obtain rfl : o = .sha256 := ho
  have hsuccess := success_iff (H := H) hw (p.hints hp)
  rw [← and_assoc, accepted_hints_iff hw hp, ← p.script_eq_pushes hp] at hsuccess
  refine ⟨fun hf => ⟨_, run_of_fits hf log⟩, ?_, ?_⟩
  · constructor
    · rintro ⟨outcome, log', hrun, hok⟩
      rw [run_eq_ok hrun] at hok
      obtain ⟨⟨hpasses, hn, hs⟩, htrue⟩ := hsuccess.mp hok
      exact ⟨⟨log, (verify_eq_ok_true_iff hw hp).mpr ⟨hpasses, rfl⟩⟩,
        ⟨_, finalState_eq hw hpasses.root, htrue⟩, hn, hs⟩
    · rintro ⟨⟨log₁, hverify⟩, ⟨state, hfinal, htrue⟩, hn, hs⟩
      have hpasses := ((verify_eq_ok_true_iff hw hp).mp hverify).1
      cases (finalState_eq hw hpasses.root).symm.trans hfinal
      obtain ⟨log', hrun⟩ := run_of_fits (hpasses.fits hw hn hs) log
      exact ⟨_, log', hrun, hsuccess.mpr ⟨⟨hpasses, hn, hs⟩, htrue⟩⟩
  · intro outcome log' hrun hok
    rw [run_eq_ok hrun] at hok ⊢
    obtain ⟨⟨hpasses, hn, hs⟩, -⟩ := hsuccess.mp hok
    obtain ⟨m, hm, hstack, -⟩ := run_of_passes (H := H) hw hpasses hn hs
    refine ⟨_, finalState_eq hw hpasses.root, ?_⟩
    exact (congrArg Outcome.mainStack (execute_of_run hm)).trans (congrArg Stacks.main hstack)

theorem run_success_iff_verify_ones :
    let x : QM31 := QM31.ofInts 5 0 0 6
    let p : Proof :=
      { root := ones
        alphaHint := onesHint 4
        claimed := x
        nonce := [7]
        witness := ⟨List.replicate 31 1, some 1⟩
        queriesHint := onesHint 5
        openings := List.replicate 5 ⟨x, [[9]]⟩ }
    p.Shaped onesConfig ∧ ∃ outcome log, run onesHasher onesConfig p [] = .ok outcome log ∧
      outcome.success = true ∧ outcome.mainStack = [ones] := by
  intro x p
  have hp : p.Shaped onesConfig := ⟨rfl, rfl, by decide, rfl, by decide⟩
  obtain ⟨-, hiff, hmain⟩ := run_success_iff_verify (h := onesHasher) rfl (fun _ => rfl) hp []
  have hones : finalState onesHasher onesConfig p = .ok ones := by cbv
  obtain ⟨outcome, log, hrun, hok⟩ :=
    hiff.mpr ⟨⟨[], by cbv⟩, ⟨ones, hones, by decide⟩, by decide, by decide⟩
  obtain ⟨state, hstate, hstack⟩ := hmain outcome log hrun hok
  cases hones.symm.trans hstate
  exact ⟨hp, outcome, log, hrun, hok, hstack⟩

end HintScript.QueryPhase
