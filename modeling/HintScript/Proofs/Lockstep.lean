import HintScript.Proofs.Refusal

/-! Prover and verifier in step.

A verifier repeats the moves of a prover and checks a hint wherever the prover squeezes. Whatever
the hints are, the two have the same state after every move: a move that is refused for its
arguments leaves the state alone on both sides, and a hint that is refused comes too late to hold
it back.
-/

set_option autoImplicit false

namespace HintScript

namespace Extraction

variable {digest : Bytes} {own : Hint}

/-- A check whose errors are rejections and that accepts one hint rejects every other. -/
theorem own_or_rejected {α : Type} (check : Hint → Except Error α) {x : α}
    (hown : check own = .ok x)
    (hrejected : ∀ hint e, check hint = .error e → ∃ cause, e = .rejected cause)
    (hunique : ∀ hint y, check hint = .ok y → hint = own) (hint : Hint) :
    hint = own ∧ check hint = .ok x ∨
      hint ≠ own ∧ ∃ cause, check hint = .error (.rejected cause) := by
  by_cases heq : hint = own
  · subst heq
    exact .inl ⟨rfl, hown⟩
  · refine .inr ⟨heq, ?_⟩
    cases hc : check hint with
    | error e =>
      obtain ⟨cause, rfl⟩ := hrejected hint e hc
      exact ⟨cause, rfl⟩
    | ok y => exact absurd (hunique hint y hc) heq

theorem unpackElement_cases (hd : digest.length = digestSize) {x : QM31}
    (hown : unpackElement digest own = .ok x) (hint : Hint) :
    hint = own ∧ unpackElement digest hint = .ok x ∨
      hint ≠ own ∧ ∃ cause, unpackElement digest hint = .error (.rejected cause) := by
  obtain ⟨values, hvalues⟩ := exists_unpack_of_unpackElement hown
  refine own_or_rejected (unpackElement digest) hown
    (fun _ _ => rejected_of_unpackElement hd) ?_ hint
  intro hint y hu
  obtain ⟨values', hvalues'⟩ := exists_unpack_of_unpackElement hu
  exact (hint_unique hd hvalues' hvalues).1

theorem unpackQueries_cases (hd : digest.length = digestSize) {w : Width} {order : BitOrder}
    {queries : List Int} (hown : unpackQueries digest own w order = .ok queries) (hint : Hint) :
    hint = own ∧ unpackQueries digest hint w order = .ok queries ∨
      hint ≠ own ∧ ∃ cause, unpackQueries digest hint w order = .error (.rejected cause) := by
  obtain ⟨values, hvalues, -⟩ := unpackQueries_eq_ok_iff.mp hown
  refine own_or_rejected (unpackQueries digest · w order) hown
    (fun _ _ => rejected_of_unpackQueries) ?_ hint
  intro hint y hu
  obtain ⟨values', hvalues', -⟩ := unpackQueries_eq_ok_iff.mp hu
  exact (hint_unique hd hvalues' hvalues).1

end Extraction

namespace Channel

/-- A step of the prover, with arguments that may make no sense. -/
inductive Move where
  | absorb (commitment : Bytes)
  | absorbElement (x : QM31)
  | absorbElements (xs : List QM31)
  | squeezeElement
  | squeezeQueries (logn : Int) (order : BitOrder)

namespace Move

def prover : Move → Step
  | absorb c => .absorb c
  | absorbElement x => .absorbElement x
  | absorbElements xs => .absorbElements xs
  | squeezeElement => .squeezeElement
  | squeezeQueries logn order => .squeezeQueries logn order

def verifier (hint : Hint) : Move → Step
  | absorb c => .absorb c
  | absorbElement x => .absorbElement x
  | absorbElements xs => .absorbElements xs
  | squeezeElement => .checkElement hint
  | squeezeQueries logn order => .checkQueries hint logn order

def squeezes : Move → Bool
  | squeezeElement | squeezeQueries _ _ => true
  | _ => false

def refusal : Move → Option ParamError
  | absorb c => if c.length = digestSize then none else some (.commitmentSize c.length)
  | squeezeQueries logn _ => if 1 ≤ logn ∧ logn ≤ 31 then none else some (.logn logn)
  | _ => none

def next (h : Hasher) (s : Bytes) : Move → Bytes
  | absorb c => h.digest (s ++ c)
  | absorbElement x => afterElement h.digest s x
  | absorbElements xs => xs.foldl (afterElement h.digest) s
  | squeezeElement | squeezeQueries _ _ => h.digest s

end Move

abbrev Record := Except Error Reply × Bytes

def Step.record (h : Hasher) (step : Step) (s : Bytes) : Record :=
  match step.run h s with
  | .ok reply s' => (.ok reply, s')
  | .error e s' => (.error e, s')

theorem replay_cons (h : Hasher) (step : Step) (steps : List (Except Error Step)) (s : Bytes) :
    replay h (.ok step :: steps) s =
      step.record h s :: replay h steps (step.record h s).2 := by
  rw [replay, Step.record]
  cases step.run h s <;> rfl

/-- What the prover and a verifier with `hint` record for a move from the state `s`. -/
inductive InStep (h : Hasher) (s : Bytes) (m : Move) (hint : Hint) : Record → Record → Prop where
  | refused {cause : ParamError} (hm : m.refusal = some cause) :
      InStep h s m hint (.error (.invalid cause), s) (.error (.invalid cause), s)
  | absorbed (hm : m.refusal = none) (hs : m.squeezes = false) :
      InStep h s m hint (.ok .done, m.next h s) (.ok .done, m.next h s)
  /-- The hint is the prover's own. -/
  | accepted {values : List Int} (hm : m.refusal = none) (hs : m.squeezes = true) :
      InStep h s m hint (.ok (.hinted values hint), m.next h s) (.ok (.values values), m.next h s)
  | rejected {values : List Int} {own : Hint} {cause : Rejection} (hm : m.refusal = none)
      (hs : m.squeezes = true) (hne : hint ≠ own) :
      InStep h s m hint (.ok (.hinted values own), m.next h s)
        (.error (.rejected cause), m.next h s)

/-- The records of two runs are in step move by move, each move from the state after the one
before. -/
inductive Lockstep (h : Hasher) :
    Bytes → List (Move × Hint) → List Record → List Record → Prop where
  | nil (s : Bytes) : Lockstep h s [] [] []
  | cons {s : Bytes} {m : Move} {hint : Hint} {ms : List (Move × Hint)} {p v : Record}
      {ps vs : List Record} (first : InStep h s m hint p v) (rest : Lockstep h p.2 ms ps vs) :
      Lockstep h s ((m, hint) :: ms) (p :: ps) (v :: vs)

section

variable {h : Hasher} {s : Bytes} {m : Move} {hint : Hint} {p v : Record}

theorem InStep.state (hi : InStep h s m hint p v) : v.2 = p.2 := by
  cases hi <;> rfl

theorem length_foldl_afterElement (hw : h.Wide) (xs : List QM31) (hs : s.length = digestSize) :
    (xs.foldl (afterElement h.digest) s).length = digestSize := by
  induction xs generalizing s with
  | nil => exact hs
  | cons x xs ih => exact ih (hw _)

theorem Move.length_next (hw : h.Wide) (m : Move) (hs : s.length = digestSize) :
    (m.next h s).length = digestSize := by
  cases m with
  | absorbElements xs => exact length_foldl_afterElement hw xs hs
  | _ => exact hw _

theorem InStep.wide (hw : h.Wide) (hs : s.length = digestSize) (hi : InStep h s m hint p v) :
    p.2.length = digestSize := by
  cases hi with
  | refused _ => exact hs
  | absorbed _ _ => exact m.length_next hw hs
  | accepted _ _ => exact m.length_next hw hs
  | rejected _ _ _ => exact m.length_next hw hs

theorem logn_cases (logn : Int) :
    ((1 ≤ logn ∧ logn ≤ 31) ∧ ∃ w : Width, (w.bits : Int) = logn) ∨
      ¬ (1 ≤ logn ∧ logn ≤ 31) ∧ Width.ofLogn logn = .error (.invalid (.logn logn)) := by
  by_cases hl : 1 ≤ logn ∧ logn ≤ 31
  · exact .inl ⟨hl, ⟨logn.toNat, by omega, by omega⟩, Int.toNat_of_nonneg (by omega)⟩
  · refine .inr ⟨hl, ?_⟩
    unfold Width.ofLogn Width.of?
    rw [dif_neg hl]

theorem squeezeQueries_eq_error {logn : Int} {e : Error} (hl : Width.ofLogn logn = .error e)
    (order : BitOrder) : squeezeQueries h logn order s = .error e s := by
  unfold squeezeQueries
  rw [hl]
  rfl

theorem checkQueries_eq_error {logn : Int} {e : Error} (hl : Width.ofLogn logn = .error e)
    (hint : Hint) (order : BitOrder) : checkQueries h hint logn order s = .error e s := by
  unfold checkQueries
  rw [hl]
  rfl

theorem Move.verifier_eq_prover (hs : m.squeezes = false) (hint : Hint) :
    m.verifier hint = m.prover := by
  cases m with
  | absorb c => rfl
  | absorbElement x => rfl
  | absorbElements xs => rfl
  | squeezeElement => cases hs
  | squeezeQueries logn order => cases hs

theorem Move.inStep (hw : h.Wide) (m : Move) (hint : Hint) (s : Bytes) :
    InStep h s m hint (m.prover.record h s) ((m.verifier hint).record h s) := by
  cases m with
  | absorb c =>
    rw [verifier_eq_prover rfl, Step.record]
    by_cases hc : c.length = digestSize
    · simp only [prover, Step.run, bind, EStateM.bind, absorb_eq hc]
      exact .absorbed (if_pos hc) rfl
    · simp only [prover, Step.run, bind, EStateM.bind, QueryPhase.absorb_eq_error hc]
      exact .refused (if_neg hc)
  | absorbElement x =>
    rw [verifier_eq_prover rfl, Step.record]
    simp only [prover, Step.run, bind, EStateM.bind, absorbElement_eq hw]
    exact .absorbed rfl rfl
  | absorbElements xs =>
    rw [verifier_eq_prover rfl, Step.record]
    simp only [prover, Step.run, bind, EStateM.bind, absorbElements_eq hw]
    exact .absorbed rfl rfl
  | squeezeElement =>
    obtain ⟨x, own, hsqueeze, -, hown⟩ := exists_squeezeElement hw s
    simp only [prover, verifier, Step.record, Step.run, bind, EStateM.bind, hsqueeze,
      checkElement_eq]
    rcases Extraction.unpackElement_cases (hw _) hown hint with ⟨rfl, hu⟩ | ⟨hne, cause, hu⟩
    · rw [hu]
      exact .accepted rfl rfl
    · rw [hu]
      exact .rejected rfl rfl hne
  | squeezeQueries logn order =>
    rcases logn_cases logn with ⟨hl, w, rfl⟩ | ⟨hl, hlogn⟩
    · obtain ⟨queries, own, hsqueeze, -, hown⟩ := exists_squeezeQueries hw w order s
      simp only [prover, verifier, Step.record, Step.run, bind, EStateM.bind, hsqueeze,
        checkQueries_eq]
      rcases Extraction.unpackQueries_cases (hw _) hown hint with ⟨rfl, hu⟩ | ⟨hne, cause, hu⟩
      · rw [hu]
        exact .accepted (if_pos hl) rfl
      · rw [hu]
        exact .rejected (if_pos hl) rfl hne
    · simp only [prover, verifier, Step.record, Step.run, bind, EStateM.bind,
        squeezeQueries_eq_error hlogn, checkQueries_eq_error hlogn]
      exact .refused (if_neg hl)

theorem lockstep_of_moves (hw : h.Wide) (ms : List (Move × Hint)) (s : Bytes) :
    Lockstep h s ms (replay h (ms.map fun m => .ok m.1.prover) s)
      (replay h (ms.map fun m => .ok (m.1.verifier m.2)) s) := by
  -- both runs go on from the state after the first move, which is the same
  induction ms generalizing s with
  | nil => exact .nil s
  | cons m ms ih =>
    obtain ⟨m, hint⟩ := m
    have hfirst := m.inStep hw hint s
    rw [List.map_cons, List.map_cons, replay_cons, replay_cons, hfirst.state]
    exact .cons hfirst (ih _)

variable {ms : List (Move × Hint)} {ps vs : List Record}

theorem Lockstep.states (hl : Lockstep h s ms ps vs) : ps.map Prod.snd = vs.map Prod.snd := by
  induction hl with
  | nil s => rfl
  | cons first rest ih => rw [List.map_cons, List.map_cons, first.state, ih]

theorem Lockstep.wide (hw : h.Wide) (hs : s.length = digestSize) (hl : Lockstep h s ms ps vs) :
    ∀ r ∈ ps, r.2.length = digestSize := by
  induction hl with
  | nil s => simp
  | cons first rest ih =>
    have hp := first.wide hw hs
    exact List.forall_mem_cons.mpr ⟨hp, ih hp⟩

/-- A prover and a verifier with arbitrary hints, from a state of the right length: they stay in
step, their states are the same after every move, and all have that length. -/
theorem replay_lockstep (hw : h.Wide) (hs : s.length = digestSize) (ms : List (Move × Hint)) :
    let provers := replay h (ms.map fun m => .ok m.1.prover) s
    let verifiers := replay h (ms.map fun m => .ok (m.1.verifier m.2)) s
    Lockstep h s ms provers verifiers ∧ provers.map Prod.snd = verifiers.map Prod.snd ∧
      ∀ r ∈ provers, r.2.length = digestSize := by
  intro provers verifiers
  have hl : Lockstep h s ms provers verifiers := lockstep_of_moves hw ms s
  exact ⟨hl, hl.states, hl.wide hw hs⟩

end

theorem replay_lockstep_sevens :
    let sevens : Bytes := List.replicate 32 7
    let h : Hasher := ⟨.sha256, fun _ => sevens⟩
    let empty : Hint := ⟨[], []⟩
    let own : Hint := ⟨List.replicate 5 [7, 7, 7, 7], List.replicate 12 7⟩
    let ms : List (Move × Hint) := [(.absorb [], empty), (.squeezeElement, empty),
      (.squeezeQueries 32 .low, empty), (.squeezeQueries 3 .high, own)]
    let provers := replay h (ms.map fun m => .ok m.1.prover) sevens
    let verifiers := replay h (ms.map fun m => .ok (m.1.verifier m.2)) sevens
    h.Wide ∧ sevens.length = digestSize ∧ Lockstep h sevens ms provers verifiers ∧
      verifiers.map Prod.fst = [.error (.invalid (.commitmentSize 0)),
        .error (.rejected (.hint (.unitCount 4 0))), .error (.invalid (.logn 32)),
        .ok (.values [0, 0, 0, 0, 0])] := by
  intro sevens h empty own ms provers verifiers
  have hw : h.Wide := fun _ => rfl
  obtain ⟨hl, -, -⟩ := replay_lockstep hw (s := sevens) rfl ms
  exact ⟨hw, rfl, hl, rfl⟩

end Channel

end HintScript
