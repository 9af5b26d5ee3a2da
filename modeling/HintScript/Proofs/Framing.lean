import HintScript.Proofs.Peak

set_option autoImplicit false

namespace HintScript

namespace Stacks

def above (st base : Stacks) : Stacks := ⟨st.main ++ base.main, st.alt ++ base.alt⟩

theorem size_above (st base : Stacks) : (st.above base).size = st.size + base.size := by
  simp only [above, size, List.length_append]
  omega

end Stacks

/-- An effect that ends does so above anything, with the same result. -/
def Effect.Framed {α : Type} (e : Effect α) : Prop :=
  ∀ st x st' base, e st = .ok x st' → e (st.above base) = .ok x (st'.above base)

namespace Effect.Framed

variable {α β : Type} {e : Effect α}

theorem bind {k : α → Effect β} (he : Effect.Framed e) (hk : ∀ x, Effect.Framed (k x)) :
    Effect.Framed (e >>= k) := by
  intro st y st' base h
  simp only [Bind.bind, EStateM.bind] at h ⊢
  cases h₁ : e st with
  | error f st₁ => simp [h₁] at h
  | ok x st₁ =>
    simp only [h₁] at h
    rw [he st x st₁ base h₁]
    exact hk x st₁ y st' base h

theorem pure (x : α) : Effect.Framed (Pure.pure x) := by
  intro st y st' base h
  cases h
  rfl

theorem throw (f : Fault) : Effect.Framed (throw f : Effect α) := by
  intro st y st' base h
  cases h

theorem push (x : Bytes) : Effect.Framed (Effect.push x) := by
  intro st y st' base h
  cases h
  rfl

theorem pop : Effect.Framed Effect.pop := by
  intro st x st' base h
  obtain ⟨main, alt⟩ := st
  cases main with
  | nil => cases h
  | cons y rest =>
    cases h
    rfl

theorem getElem?_above {st : Stacks} {i : Nat} {x : Bytes} (h : st.main[i]? = some x)
    (base : Stacks) : (st.above base).main[i]? = some x := by
  obtain ⟨hi, -⟩ := List.getElem?_eq_some_iff.mp h
  exact (List.getElem?_append_left hi).trans h

theorem peek (i : Nat) : Effect.Framed (Effect.peek i) := by
  intro st x st' base h
  unfold Effect.peek at h ⊢
  cases hi : st.main[i]? with
  | none => simp [hi] at h
  | some y =>
    simp only [hi, EStateM.Result.ok.injEq] at h
    obtain ⟨rfl, rfl⟩ := h
    simp only [getElem?_above hi]

theorem copy (i : Nat) : Effect.Framed (Effect.copy i) := (peek i).bind push

theorem move (i : Nat) : Effect.Framed (Effect.move i) := by
  intro st x st' base h
  unfold Effect.move at h ⊢
  cases hi : st.main[i]? with
  | none => simp [hi] at h
  | some y =>
    simp only [hi, EStateM.Result.ok.injEq, true_and] at h
    subst h
    obtain ⟨hlt, -⟩ := List.getElem?_eq_some_iff.mp hi
    simp only [getElem?_above hi]
    simp only [Stacks.above, List.eraseIdx_append_of_lt_length hlt, List.cons_append]

theorem toAlt : Effect.Framed Effect.toAlt := by
  intro st x st' base h
  obtain ⟨main, alt⟩ := st
  cases main with
  | nil => cases h
  | cons y rest =>
    cases h
    rfl

theorem fromAlt : Effect.Framed Effect.fromAlt := by
  intro st x st' base h
  obtain ⟨main, alt⟩ := st
  cases alt with
  | nil => cases h
  | cons y rest =>
    cases h
    rfl

theorem pushNum (v : Int) : Effect.Framed (Effect.pushNum v) := push _

theorem popNum (limits : Limits) : Effect.Framed (Effect.popNum limits) := by
  refine pop.bind fun x => ?_
  split
  · exact pure _
  · exact throw _

theorem unary (limits : Limits) (f : Int → Int) : Effect.Framed (Effect.unary limits f) :=
  (popNum limits).bind fun v => pushNum (f v)

theorem binary (limits : Limits) (f : Int → Int → Int) : Effect.Framed (Effect.binary limits f) :=
  (popNum limits).bind fun w => (popNum limits).bind fun v => pushNum (f v w)

theorem require (condition : Bool) (fault : Fault) :
    Effect.Framed (Effect.require condition fault) := by
  unfold Effect.require
  split
  · exact pure ()
  · exact throw fault

theorem popIndex (limits : Limits) (code : Opcode) :
    Effect.Framed (Effect.popIndex limits code) :=
  (popNum limits).bind fun n => (require _ _).bind fun _ => pure n.toNat

end Effect.Framed

open Effect.Framed in
/-- Only `depth` looks at how much lies below. -/
theorem Opcode.effect_framed (limits : Limits) {o : Opcode} (ho : o ≠ .depth) :
    Effect.Framed (o.effect limits) := by
  cases o <;> try contradiction
  case nop => exact pure ()
  case verify => exact pop.bind fun x => require _ _
  case abort => exact throw _
  case toAlt => exact Effect.Framed.toAlt
  case fromAlt => exact Effect.Framed.fromAlt
  case drop2 => exact pop.bind fun _ => pop.bind fun _ => pure ()
  case dup2 => exact (copy 1).bind fun _ => copy 1
  case dup3 => exact (copy 2).bind fun _ => (copy 2).bind fun _ => copy 2
  case over2 => exact (copy 3).bind fun _ => copy 3
  case rot2 => exact (move 5).bind fun _ => move 5
  case swap2 => exact (move 3).bind fun _ => move 3
  case ifDup =>
    refine (peek 0).bind fun x => ?_
    split
    · exact copy 0
    · exact pure ()
  case drop => exact pop.bind fun _ => pure ()
  case dup => exact copy 0
  case nip => exact pop.bind fun _ => pop.bind fun _ => push _
  case over1 => exact copy 1
  case pick => exact (popIndex _ _).bind fun n => copy n
  case roll => exact (popIndex _ _).bind fun n => move n
  case rot => exact move 2
  case swap => exact move 1
  case tuck =>
    exact pop.bind fun _ => pop.bind fun _ => (push _).bind fun _ => (push _).bind fun _ => push _
  case cat => exact pop.bind fun _ => pop.bind fun _ => (require _ _).bind fun _ => push _
  case size => exact (peek 0).bind fun x => pushNum x.length
  case equal => exact pop.bind fun _ => pop.bind fun _ => push _
  case equalVerify => exact pop.bind fun _ => pop.bind fun _ => require _ _
  case numEqualVerify =>
    exact (popNum _).bind fun _ => (popNum _).bind fun _ => require _ _
  case within =>
    exact (popNum _).bind fun _ => (popNum _).bind fun _ => (popNum _).bind fun _ => push _
  all_goals first
    | exact unary _ _
    | exact binary _ _
    | exact throw _

theorem Machine.itemEffect_framed (env : Env) {item : Item} (hi : item ≠ .op .depth) :
    Effect.Framed (itemEffect env item) := by
  cases item with
  | push data => exact (Effect.Framed.require _ _).bind fun _ => Effect.Framed.push data
  | op o =>
    unfold itemEffect
    simp only
    split
    · exact Effect.Framed.pop.bind fun x => Effect.Framed.push _
    · exact Opcode.effect_framed _ fun ho => hi (congrArg Item.op ho)

namespace Frame

def above (f : Frame) (base : Stacks) : Frame := ⟨f.stack.above base, f.branches⟩

theorem openBranch_above {sense : Bool} {f g : Frame} (h : f.openBranch sense = some g)
    (base : Stacks) : (f.above base).openBranch sense = some (g.above base) := by
  obtain ⟨⟨main, alt⟩, branches⟩ := f
  unfold openBranch at h
  split at h
  · rename_i ha
    cases main with
    | nil => cases h
    | cons c rest =>
      simp only at h
      split at h
      · rename_i hc
        cases h
        exact (if_pos ha).trans (if_pos hc)
      · cases h
  · rename_i ha
    cases h
    exact if_neg ha

theorem step_above {env : Env} {item : Item} (hi : item ≠ .op .depth) {f g : Frame}
    (h : f.step env item = some g) (base : Stacks) :
    (f.above base).step env item = some (g.above base) := by
  cases hc : item.conditional with
  | false =>
    rw [step_plain env hc] at h ⊢
    by_cases ha : f.active = true
    · rw [if_pos ha] at h
      rw [if_pos (show (f.above base).active = true from ha)]
      unfold acted at h ⊢
      cases he : Machine.itemEffect env item f.stack with
      | error fault st => simp [he] at h
      | ok a st =>
        simp only [he, Option.map_some, Option.some.injEq] at h
        subst h
        have habove : Machine.itemEffect env item (f.above base).stack = .ok a (st.above base) :=
          Machine.itemEffect_framed env hi _ _ _ base he
        rw [habove]
        rfl
    · rw [if_neg ha] at h
      rw [if_neg (show ¬ (f.above base).active = true from ha)]
      cases h
      rfl
  | true =>
    cases item with
    | push data => cases hc
    | op o =>
      cases o <;> first | cases hc; done | skip
      · exact openBranch_above h base
      · exact openBranch_above h base
      · obtain ⟨st, branches⟩ := f
        cases branches <;> cases h
        rfl
      · obtain ⟨st, branches⟩ := f
        cases branches <;> cases h
        rfl

end Frame

namespace Machine

variable {env : Env} {item : Item} {s : Script} {m m' n : Machine} {base : Stacks}

/-- A step that acts needs room for what it leaves and the items under it; one that does not act
needs none. -/
theorem step_above (hi : item ≠ .op .depth) (hn : n.frame = m.frame.above base)
    (h : step env item m = .ok () m')
    (hroom : (m'.peak : Int) + base.size ≤ env.limits.stackItems) :
    ∃ n', step env item n = .ok () n' ∧ n'.frame = m'.frame.above base := by
  rcases peak_of_step h with hpeak | ⟨hc, ha, rfl⟩
  · have hstep : n.frame.step env item = some (m'.frame.above base) := by
      rw [hn]
      exact Frame.step_above hi (frame_step_of_ok h) base
    refine step_of_frame hstep ?_
    have hsize := m'.stack.size_above base
    change ((m'.stack.above base).size : Int) ≤ _
    omega
  · have hidle : n.active = false := (congrArg Frame.active hn).trans ha
    exact ⟨n.passed, step_idle hc hidle, hn⟩

theorem run_above (hs : Item.op .depth ∉ s) (hn : n.frame = m.frame.above base)
    (h : run env s m = .ok () m')
    (hroom : (m'.peak : Int) + base.size ≤ env.limits.stackItems) :
    ∃ n', run env s n = .ok () n' ∧ n'.frame = m'.frame.above base := by
  induction s generalizing m n with
  | nil =>
    cases h
    exact ⟨n, rfl, hn⟩
  | cons item s ih =>
    rw [List.mem_cons, not_or] at hs
    obtain ⟨hi, hs⟩ := hs
    obtain ⟨m₁, hstep, hrun⟩ := run_cons_eq_ok_iff.mp h
    -- The peak only rises, so the room for the whole run is room for its first step.
    have hpeak := peak_le_of_run hrun
    obtain ⟨n₁, hstep₁, hn₁⟩ := step_above (Ne.symm hi) hn hstep (by omega)
    obtain ⟨n', hrun', hn'⟩ := ih hs hn₁ hrun
    exact ⟨n', run_cons_eq_ok_iff.mpr ⟨n₁, hstep₁, hrun'⟩, hn'⟩

/-- The frame law: a script without `depth` that goes through from some stacks goes through with
`below` and `belowAlt` under them, and leaves these where they are, if the peak of the first run
leaves room for them. -/
theorem run_framed (hs : Item.op .depth ∉ s) {main alt : List Bytes}
    (h : run env s { stack := ⟨main, alt⟩ } = .ok () m) (below belowAlt : List Bytes)
    (hroom : (m.peak : Int) + below.length + belowAlt.length ≤ env.limits.stackItems) :
    ∃ n, run env s { stack := ⟨main ++ below, alt ++ belowAlt⟩ } = .ok () n ∧
      n.stack = ⟨m.stack.main ++ below, m.stack.alt ++ belowAlt⟩ ∧ n.branches = m.branches := by
  have hsize : (m.peak : Int) + (⟨below, belowAlt⟩ : Stacks).size ≤ env.limits.stackItems := by
    simp only [Stacks.size]
    omega
  have hstart : ({ stack := ⟨main ++ below, alt ++ belowAlt⟩ } : Machine).frame =
      ({ stack := ⟨main, alt⟩ } : Machine).frame.above ⟨below, belowAlt⟩ := rfl
  obtain ⟨n, hrun, hn⟩ := run_above hs hstart h hsize
  exact ⟨n, hrun, congrArg Frame.stack hn, congrArg Frame.branches hn⟩

theorem run_framed_branch :
    let env : Env := ⟨.sha256, { stackItems := 8 }⟩
    let s : Script := [.op .ifTrue, .push [2], .op .pick, .op .orElse, .op .abort, .op .endIf,
      .op .fromAlt]
    ∃ m n, Item.op .depth ∉ s ∧
      run env s { stack := ⟨[[1], [5], [6], [7]], [[8]]⟩ } = .ok () m ∧
      (m.peak : Int) + 2 + 1 ≤ env.limits.stackItems ∧
      run env s { stack := ⟨[[1], [5], [6], [7], [3], [4]], [[8], [9]]⟩ } = .ok () n ∧
      n.stack = ⟨[[8], [7], [5], [6], [7], [3], [4]], [[9]]⟩ := by
  intro env s
  have hs : Item.op .depth ∉ s := by decide
  have hrun : run env s { stack := ⟨[[1], [5], [6], [7]], [[8]]⟩ } = .ok ()
      { stack := ⟨[[8], [7], [5], [6], [7]], []⟩, position := 7, executed := 6, peak := 5 } := rfl
  obtain ⟨n, hn, hstack, -⟩ := run_framed hs hrun [[3], [4]] [[9]] (by decide)
  exact ⟨_, n, hs, hrun, by decide, hn, hstack⟩

end Machine

end HintScript
