import HintScript.Proofs.Shift

/-! Conditionals as a tree.

A structured program has its conditionals as nodes, each with one or more blocks. Running it flat,
with a list of open branches, comes to the same as evaluating the tree; and scripts that no tree
flattens to never succeed.
-/

set_option autoImplicit false

namespace HintScript

mutual

inductive Program where
  | done
  | item (i : Item) (plain : i.conditional = false) (next : Program)
  /-- With `sense`, a condition that holds selects the first block. -/
  | branch (sense : Bool) (blocks : Blocks) (next : Program)

inductive Blocks where
  | last (body : Program)
  | orElse (body : Program) (rest : Blocks)

end

def opener (sense : Bool) : Opcode := if sense then .ifTrue else .ifFalse

mutual

def Program.script : Program → Script
  | .done => []
  | .item i _ next => i :: next.script
  | .branch sense blocks next => .op (opener sense) :: (blocks.script ++ next.script)

def Blocks.script : Blocks → Script
  | .last body => body.script ++ [.op .endIf]
  | .orElse body rest => body.script ++ .op .orElse :: rest.script

end

def Effect.checkRoom (limit : Int) : Effect Unit := fun st =>
  if limit < st.size then .error (.stackTooLarge st.size limit) st else .ok () st

mutual

def Program.eval (env : Env) : Program → Effect Unit
  | .done => pure ()
  | .item i _ next => do
    Machine.itemEffect env i
    Effect.checkRoom env.limits.stackItems
    next.eval env
  | .branch sense blocks next => do
    let top ← Effect.pop
    if top = [1] then blocks.eval env (if sense then 0 else 1) 0
    else if top = [] then blocks.eval env (if sense then 1 else 0) 0
    else throw (.conditionNotMinimal (opener sense))
    next.eval env

/-- Of the blocks, the first of which is at position `k`, those whose position has the parity. -/
def Blocks.eval (env : Env) (parity : Nat) : Nat → Blocks → Effect Unit
  | k, .last body => if k % 2 = parity then body.eval env else pure ()
  | k, .orElse body rest => do
    (if k % 2 = parity then body.eval env else pure ())
    rest.eval env parity (k + 1)

end

namespace Program

def succeeds (env : Env) (p : Program) : Bool :=
  match p.eval env {} with
  | .ok _ ⟨[x], _⟩ => Number.isTrue x
  | _ => false

def final (env : Env) (p : Program) : Stacks :=
  match p.eval env {} with
  | .ok _ st => st
  | .error _ st => st

end Program

/-! ### The flat run -/

namespace Machine

variable {env : Env} {m : Machine} {s t : Script}

def Reaches (env : Env) (s : Script) (m : Machine) (f : Frame) : Prop :=
  ∃ m', run env s m = .ok () m' ∧ m'.frame = f

theorem Reaches.nil {f : Frame} (h : m.frame = f) : Reaches env [] m f := ⟨m, rfl, h⟩

theorem run_cons_of_frame {item : Item} {g : Frame} (hstep : m.frame.step env item = some g)
    (hroom : (g.stack.size : Int) ≤ env.limits.stackItems) :
    ∃ m', m'.frame = g ∧ run env (item :: s) m = run env s m' := by
  obtain ⟨m', hm', hg⟩ := step_of_frame hstep hroom
  exact ⟨m', hg, by rw [run_cons, hm']⟩

theorem Reaches.cons {item : Item} {f g : Frame} (hstep : m.frame.step env item = some g)
    (hroom : (g.stack.size : Int) ≤ env.limits.stackItems)
    (hs : ∀ m', m'.frame = g → Reaches env s m' f) : Reaches env (item :: s) m f := by
  obtain ⟨n, hn, hrun⟩ := run_cons_of_frame hstep hroom
  obtain ⟨m', hm', hf⟩ := hs n hn
  exact ⟨m', hrun.trans hm', hf⟩

theorem Reaches.append {f g : Frame} (hs : Reaches env s m g)
    (ht : ∀ m', m'.frame = g → Reaches env t m' f) : Reaches env (s ++ t) m f := by
  obtain ⟨n, hn, hg⟩ := hs
  obtain ⟨m', hm', hf⟩ := ht n hg
  refine ⟨m', ?_, hf⟩
  rw [run_append_eq, hn]
  exact hm'

/-- A run that ends as an evaluation does: with the same fault, or within the limit and with the
branches `bs` open; and with the same stacks. -/
inductive Follows (env : Env) (bs : List Bool) :
    EStateM.Result Fault Machine Unit → EStateM.Result Fault Stacks Unit → Prop where
  | ok {m : Machine} (hb : m.branches = bs)
      (hroom : (m.stack.size : Int) ≤ env.limits.stackItems) :
      Follows env bs (.ok () m) (.ok () m.stack)
  | error {fault : Fault} {m : Machine} : Follows env bs (.error fault m) (.error fault m.stack)

namespace Follows

variable {bs cs : List Bool} {e k : Effect Unit} {st : Stacks}

theorem of_reaches {f : Frame} (h : Reaches env s m f)
    (hroom : (f.stack.size : Int) ≤ env.limits.stackItems) :
    Follows env f.branches (run env s m) (.ok () f.stack) := by
  obtain ⟨m', hm', rfl⟩ := h
  rw [hm']
  exact .ok rfl hroom

theorem ends {x : EStateM.Result Fault Machine Unit} {y : EStateM.Result Fault Stacks Unit}
    (h : Follows env bs x y) :
    (∃ m, x = .ok () m ∧ m.branches = bs ∧ y = .ok () m.stack) ∨
    ∃ fault m, x = .error fault m ∧ y = .error fault m.stack := by
  cases h with
  | ok hb _ => exact .inl ⟨_, rfl, hb, rfl⟩
  | error => exact .inr ⟨_, _, rfl, rfl⟩

theorem bind {a b : EStateM Fault Machine Unit} (ha : Follows env bs (a m) (e st))
    (hb : ∀ m', m'.branches = bs → (m'.stack.size : Int) ≤ env.limits.stackItems →
      Follows env cs (b m') (k m'.stack)) :
    Follows env cs ((do a; b) m) ((do e; k) st) := by
  change Follows env cs (EStateM.bind a (fun _ => b) m) (EStateM.bind e (fun _ => k) st)
  rw [EStateM.bind, EStateM.bind]
  generalize a m = x at ha
  generalize e st = y at ha
  cases ha with
  | ok hbranches hroom => exact hb _ hbranches hroom
  | error => exact .error

theorem cons {item : Item} (hs : Follows env bs (step env item m) (e st))
    (ht : ∀ m', m'.branches = bs → (m'.stack.size : Int) ≤ env.limits.stackItems →
      Follows env cs (run env t m') (k m'.stack)) :
    Follows env cs (run env (item :: t) m) ((do e; k) st) := by
  rw [run]
  exact hs.bind ht

theorem append (hs : Follows env bs (run env s m) (e st))
    (ht : ∀ m', m'.branches = bs → (m'.stack.size : Int) ≤ env.limits.stackItems →
      Follows env cs (run env t m') (k m'.stack)) :
    Follows env cs (run env (s ++ t) m) ((do e; k) st) := by
  rw [run_append]
  exact hs.bind ht

end Follows

theorem follows_step {i : Item} (hc : i.conditional = false) (ha : m.active = true) :
    Follows env m.branches (step env i m)
      ((do itemEffect env i; Effect.checkRoom env.limits.stackItems) m.stack) := by
  rw [step_acting (.inr ha), move_plain env hc, act_eq]
  simp only [onStacks, bind, EStateM.bind, Effect.checkRoom]
  cases itemEffect env i m.stack with
  | error fault st => exact .error
  | ok a st =>
    by_cases hroom : env.limits.stackItems < st.size
    · simp only [if_pos hroom]
      exact .error
    · simp only [if_neg hroom]
      exact .ok rfl (by change (st.size : Int) ≤ _; omega)

theorem step_opener (sense : Bool) :
    step env (.op (opener sense)) m =
      match act env (openBranch (opener sense) sense) m with
      | .error e m' => .error e m'
      | .ok _ m' => .ok () m'.passed := by
  cases sense <;> exact step_acting (.inl rfl)

theorem step_opener_underflow {sense : Bool} (ha : m.active = true) (hm : m.stack.main = []) :
    step env (.op (opener sense)) m = .error .underflow m := by
  have hopen : openBranch (opener sense) sense m = .error .underflow m := by
    unfold openBranch taken
    simp only [bind, EStateM.bind, get, getThe, MonadStateOf.get, EStateM.get, ha, if_true,
      onStacks, condition, Effect.pop, hm]
  rw [step_opener, act_eq, hopen]

theorem step_opener_rejected {sense : Bool} {x : Bytes} {main : List Bytes}
    (ha : m.active = true) (hm : m.stack.main = x :: main) (hx : ¬ (x = [] ∨ x = [1])) :
    step env (.op (opener sense)) m =
      .error (.conditionNotMinimal (opener sense)) { m with stack := ⟨main, m.stack.alt⟩ } := by
  have hopen : openBranch (opener sense) sense m =
      .error (.conditionNotMinimal (opener sense)) { m with stack := ⟨main, m.stack.alt⟩ } := by
    unfold openBranch taken
    simp only [bind, EStateM.bind, get, getThe, MonadStateOf.get, EStateM.get, ha, if_true,
      onStacks, condition, Effect.pop, hm, Effect.require, hx, decide_false, Bool.false_eq_true,
      if_false]
    rfl
  rw [step_opener, act_eq, hopen]

end Machine

theorem Frame.step_opener (env : Env) (sense : Bool) (f : Frame) :
    f.step env (.op (opener sense)) = f.openBranch sense := by
  cases sense <;> rfl

theorem Frame.openBranch_minimal {sense : Bool} {f : Frame} {x : Bytes} {main : List Bytes}
    (ha : f.active = true) (hm : f.stack.main = x :: main) (hx : x = [] ∨ x = [1]) :
    f.openBranch sense =
      some ⟨⟨main, f.stack.alt⟩, (decide (x = [1]) == sense) :: f.branches⟩ := by
  unfold Frame.openBranch
  rw [if_pos ha, hm]
  exact if_pos hx

namespace Machine

variable {env : Env} {m : Machine} {s : Script} {bs : List Bool}

theorem run_next {item : Item} {st : Stacks} (hstep : m.frame.step env item = some ⟨st, bs⟩)
    (hroom : (st.size : Int) ≤ env.limits.stackItems) :
    ∃ m', m'.stack = st ∧ m'.branches = bs ∧ run env (item :: s) m = run env s m' := by
  obtain ⟨m', hm', hrun⟩ := run_cons_of_frame hstep hroom
  exact ⟨m', congrArg Frame.stack hm', congrArg Frame.branches hm', hrun⟩

theorem run_opener_minimal {sense : Bool} {x : Bytes} {main : List Bytes} (ha : m.active = true)
    (hm : m.stack.main = x :: main) (hx : x = [] ∨ x = [1])
    (hroom : (m.stack.size : Int) ≤ env.limits.stackItems) :
    ∃ m', m'.stack = ⟨main, m.stack.alt⟩ ∧
      m'.branches = (decide (x = [1]) == sense) :: m.branches ∧
      (m'.stack.size : Int) ≤ env.limits.stackItems ∧
      run env (.op (opener sense) :: s) m = run env s m' := by
  have hstep : m.frame.step env (.op (opener sense)) =
      some ⟨⟨main, m.stack.alt⟩, (decide (x = [1]) == sense) :: m.branches⟩ := by
    rw [Frame.step_opener]
    exact Frame.openBranch_minimal ha hm hx
  have hless : ((⟨main, m.stack.alt⟩ : Stacks).size : Int) ≤ env.limits.stackItems := by
    simp only [Stacks.size, hm, List.length_cons] at hroom ⊢
    omega
  obtain ⟨m', hst, hb, hrun⟩ := run_next hstep hless
  exact ⟨m', hst, hb, by rw [hst]; exact hless, hrun⟩

theorem run_orElse {c : Bool} (hb : m.branches = c :: bs)
    (hroom : (m.stack.size : Int) ≤ env.limits.stackItems) :
    ∃ m', m'.stack = m.stack ∧ m'.branches = (!c) :: bs ∧
      run env (.op .orElse :: s) m = run env s m' :=
  run_next (by rw [frame, hb]; rfl) hroom

theorem run_endIf {c : Bool} (hb : m.branches = c :: bs)
    (hroom : (m.stack.size : Int) ≤ env.limits.stackItems) :
    ∃ m', m'.stack = m.stack ∧ m'.branches = bs ∧
      run env (.op .endIf :: s) m = run env s m' :=
  run_next (by rw [frame, hb]; rfl) hroom

end Machine

open Machine

section

variable {env : Env}

mutual

theorem Program.reaches_idle : ∀ (p : Program) {m : Machine} {f : Frame}, m.frame = f →
    f.active = false → (f.stack.size : Int) ≤ env.limits.stackItems → Reaches env p.script m f
  | .done, m, _, hf, _, _ => .nil hf
  | .item i plain next, m, f, hf, ha, hroom => by
    have hstep : m.frame.step env i = some f := by
      rw [hf, Frame.step_plain env plain, if_neg (by simp [ha])]
    exact .cons hstep hroom fun m' hm' => next.reaches_idle hm' ha hroom
  | .branch sense blocks next, m, f, hf, ha, hroom => by
    have hstep : m.frame.step env (.op (opener sense)) = some ⟨f.stack, false :: f.branches⟩ := by
      rw [hf, Frame.step_opener, Frame.openBranch_idle ha]
    exact .cons hstep hroom fun m' hm' =>
      .append (blocks.reaches_idle hm' ha hroom) fun n hn => next.reaches_idle hn ha hroom

theorem Blocks.reaches_idle : ∀ (b : Blocks) {m : Machine} {st : Stacks} {c : Bool}
    {bs : List Bool}, m.frame = ⟨st, c :: bs⟩ → bs.all id = false →
    (st.size : Int) ≤ env.limits.stackItems → Reaches env b.script m ⟨st, bs⟩
  | .last body, m, st, c, bs, hf, ha, hroom => by
    refine .append (body.reaches_idle hf (by simp [Frame.active, ha]) hroom) fun m' hm' => ?_
    exact .cons (by rw [hm']; rfl) hroom fun n hn => .nil hn
  | .orElse body rest, m, st, c, bs, hf, ha, hroom => by
    refine .append (body.reaches_idle hf (by simp [Frame.active, ha]) hroom) fun m' hm' => ?_
    exact .cons (by rw [hm']; rfl) hroom fun n hn => rest.reaches_idle hn ha hroom

end

namespace Program

variable {sense : Bool} {blocks : Blocks} {next : Program} {x : Bytes} {main alt : List Bytes}

theorem eval_branch_minimal (hx : x = [] ∨ x = [1]) :
    (branch sense blocks next).eval env ⟨x :: main, alt⟩ =
      (do
        blocks.eval env (if decide (x = [1]) == sense then 0 else 1) 0
        next.eval env) ⟨main, alt⟩ := by
  rcases hx with rfl | rfl <;> cases sense <;> simp [eval, Effect.pop, bind, EStateM.bind]

theorem eval_branch_rejected (hx : ¬ (x = [] ∨ x = [1])) :
    (branch sense blocks next).eval env ⟨x :: main, alt⟩ =
      .error (.conditionNotMinimal (opener sense)) ⟨main, alt⟩ := by
  rw [not_or] at hx
  simp [eval, Effect.pop, bind, EStateM.bind, hx]
  rfl

end Program

theorem Program.follows_block {p : Program} {m : Machine} {c : Bool} {bs : List Bool}
    (hb : m.branches = c :: bs) (hroom : (m.stack.size : Int) ≤ env.limits.stackItems)
    (hp : c = true → Follows env (c :: bs) (run env p.script m) (p.eval env m.stack)) :
    Follows env (c :: bs) (run env p.script m)
      ((if c = true then p.eval env else pure ()) m.stack) := by
  cases c with
  | true => exact hp rfl
  | false =>
    have hidle : m.frame.active = false := by simp [Frame.active, frame, hb]
    exact hb ▸ .of_reaches (p.reaches_idle rfl hidle hroom) hroom

mutual

/-- Where every open branch is taken, the flat run of a program ends as its evaluation does. -/
theorem Program.follows : ∀ (p : Program) {m : Machine} {bs : List Bool}, m.branches = bs →
    bs.all id = true → (m.stack.size : Int) ≤ env.limits.stackItems →
    Follows env bs (run env p.script m) (p.eval env m.stack)
  | .done, m, bs, hb, _, hroom => .ok hb hroom
  | .item i plain next, m, bs, hb, ha, hroom => by
    subst hb
    have hcons := (follows_step plain ha).cons fun m' hb' hroom' => next.follows hb' ha hroom'
    rw [bind_assoc] at hcons
    exact hcons
  | .branch sense blocks next, m, bs, hb, ha, hroom => by
    obtain ⟨⟨main, alt⟩, branches, position, executed, peak⟩ := m
    subst hb
    rw [Program.script]
    cases main with
    | nil =>
      rw [run_cons, step_opener_underflow ha rfl]
      exact .error
    | cons x main =>
      by_cases hx : x = [] ∨ x = [1]
      · obtain ⟨m', hst, hb, hroom', hrun⟩ := run_opener_minimal ha rfl hx hroom
        rw [hrun, Program.eval_branch_minimal hx, ← hst]
        refine .append (blocks.follows ?_ ?_ ha hroom') fun n hb hn => next.follows hb ha hn
        · split <;> decide
        · rw [hb]
          cases (decide (x = [1]) == sense) <;> rfl
      · rw [run_cons, step_opener_rejected ha rfl hx, Program.eval_branch_rejected hx]
        exact .error

theorem Blocks.follows : ∀ (b : Blocks) {m : Machine} {bs : List Bool} {parity k : Nat},
    parity < 2 → m.branches = decide (k % 2 = parity) :: bs → bs.all id = true →
    (m.stack.size : Int) ≤ env.limits.stackItems →
    Follows env bs (run env b.script m) (b.eval env parity k m.stack)
  | .last body, m, bs, parity, k, hp, hb, ha, hroom => by
    have hbody := Program.follows_block hb hroom fun hc => body.follows hb (by simp [hc, ha]) hroom
    have hlast := hbody.append (k := pure ()) fun n hn hroom' => by
      obtain ⟨n', hst, hb', hrun⟩ := run_endIf (s := []) hn hroom'
      rw [hrun, ← hst]
      exact .ok hb' (by rw [hst]; exact hroom')
    simp only [decide_eq_true_eq, bind_pure_unit] at hlast
    exact hlast
  | .orElse body rest, m, bs, parity, k, hp, hb, ha, hroom => by
    have hbody := Program.follows_block hb hroom fun hc => body.follows hb (by simp [hc, ha]) hroom
    have hrest := hbody.append (k := rest.eval env parity (k + 1)) fun n hn hroom' => by
      obtain ⟨n', hst, hb', hrun⟩ := run_orElse (s := rest.script) hn hroom'
      rw [hrun, ← hst]
      refine rest.follows hp ?_ ha (by rw [hst]; exact hroom')
      have hk : (¬ k % 2 = parity) ↔ (k + 1) % 2 = parity := by omega
      rw [hb', ← decide_not, decide_eq_decide.mpr hk]
    simp only [decide_eq_true_eq] at hrest
    exact hrest

end

theorem Program.run_start (env : Env) (p : Program) :
    (∃ m, run env p.script {} = .ok () m ∧ m.branches = [] ∧ p.eval env {} = .ok () m.stack) ∨
    ∃ fault m, run env p.script {} = .error fault m ∧ p.eval env {} = .error fault m.stack := by
  -- from empty stacks no room is needed: where the limit leaves none, the first item that acts
  -- stops both
  by_cases hroom : 0 ≤ env.limits.stackItems
  · have hp : Follows env [] (run env p.script {}) (p.eval env {}) :=
      p.follows (m := {}) rfl rfl hroom
    exact hp.ends
  cases p with
  | done => exact .inl ⟨{}, rfl, rfl, rfl⟩
  | item i plain next =>
    have hstep : Follows env [] (step env i {})
        ((do itemEffect env i; Effect.checkRoom env.limits.stackItems) {}) :=
      follows_step (m := {}) plain rfl
    have hnext (m : Machine) (_ : m.branches = [])
        (hm : (m.stack.size : Int) ≤ env.limits.stackItems) :
        Follows env [] (run env next.script m) (next.eval env m.stack) := absurd hm (by omega)
    have hcons := hstep.cons hnext
    rw [bind_assoc] at hcons
    exact hcons.ends
  | branch sense blocks next =>
    refine .inr ⟨.underflow, {}, ?_, rfl⟩
    rw [script, run_cons, step_opener_underflow rfl rfl]

theorem Program.succeeds_iff {p : Program} :
    p.succeeds env = true ↔
      ∃ st x, p.eval env {} = .ok () st ∧ st.main = [x] ∧ Number.isTrue x = true := by
  unfold succeeds
  constructor
  · intro h
    split at h
    · rename_i x alt heval
      exact ⟨_, x, heval, rfl, h⟩
    · cases h
  · rintro ⟨⟨main, alt⟩, x, heval, rfl, hx⟩
    rw [heval]
    exact hx

theorem Program.execute_script (env : Env) (p : Program) :
    (execute env p.script).success = p.succeeds env ∧
      (execute env p.script).machine.stack = p.final env := by
  rcases p.run_start env with ⟨m, hrun, hb, heval⟩ | ⟨fault, m, hrun, heval⟩
  · refine ⟨?_, by simp [execute, hrun, final, heval]⟩
    rw [Bool.eq_iff_iff, execute_success_iff, succeeds_iff]
    simp [hrun, heval, endFault_eq_none_iff, hb]
  · simp [execute, hrun, Outcome.success, succeeds, final, heval]

end

/-! ### Nesting -/

/-- Conditionals open after the item, of `d` before it; none if it has no place there. -/
def Item.nest (i : Item) (d : Nat) : Option Nat :=
  if i = .op .ifTrue ∨ i = .op .ifFalse then some (d + 1)
  else if i = .op .orElse then if d = 0 then none else some d
  else if i = .op .endIf then if d = 0 then none else some (d - 1)
  else some d

namespace Script

def nest : Nat → Script → Option Nat
  | d, [] => some d
  | d, i :: s => (i.nest d).bind (nest · s)

def Nested (s : Script) : Prop := nest 0 s = some 0

instance (s : Script) : Decidable s.Nested := inferInstanceAs (Decidable (nest 0 s = some 0))

theorem nest_append (d : Nat) (s t : Script) : nest d (s ++ t) = (nest d s).bind (nest · t) := by
  induction s generalizing d with
  | nil => rfl
  | cons i s ih => simp [nest, ih, Option.bind_assoc]

end Script

theorem Item.nest_opener (sense : Bool) (d : Nat) :
    (Item.op (opener sense)).nest d = some (d + 1) := by
  cases sense <;> rfl

theorem Item.nest_plain {i : Item} (hc : i.conditional = false) (d : Nat) : i.nest d = some d := by
  have hne (o : Opcode) (ho : o.isConditional = true) : i ≠ .op o := by
    rintro rfl
    cases ho.symm.trans hc
  simp [nest, hne .ifTrue rfl, hne .ifFalse rfl, hne .orElse rfl, hne .endIf rfl]

theorem Item.conditional_cases {i : Item} (hc : i.conditional = true) :
    (∃ sense, i = .op (opener sense)) ∨ i = .op .orElse ∨ i = .op .endIf := by
  cases i with
  | push data => cases hc
  | op o =>
    cases o <;> first | cases hc; done | skip
    · exact .inl ⟨true, rfl⟩
    · exact .inl ⟨false, rfl⟩
    · exact .inr (.inl rfl)
    · exact .inr (.inr rfl)

theorem Frame.length_openBranch {sense : Bool} {f g : Frame} (h : f.openBranch sense = some g) :
    g.branches.length = f.branches.length + 1 := by
  unfold openBranch at h
  split at h
  · split at h
    · cases h
    · split at h <;> cases h
      rfl
  · cases h
    rfl

/-- A step opens and closes branches as the item is nested. -/
theorem Frame.nest_of_step {env : Env} {i : Item} {f g : Frame} (h : f.step env i = some g) :
    i.nest f.branches.length = some g.branches.length := by
  cases hc : i.conditional with
  | false =>
    rw [Frame.step_plain env hc] at h
    rw [Item.nest_plain hc]
    split at h
    · obtain ⟨st, -, rfl⟩ := Option.map_eq_some_iff.mp h
      rfl
    · cases h
      rfl
  | true =>
    obtain ⟨st, bs⟩ := f
    rcases Item.conditional_cases hc with ⟨sense, rfl⟩ | rfl | rfl
    · rw [Frame.step_opener] at h
      rw [Item.nest_opener, Frame.length_openBranch h]
    · cases bs <;> cases h
      rfl
    · cases bs <;> cases h
      rfl

theorem Machine.nest_of_run {env : Env} {s : Script} {m m' : Machine}
    (h : run env s m = .ok () m') :
    s.nest m.branches.length = some m'.branches.length := by
  induction s generalizing m with
  | nil =>
    cases h
    rfl
  | cons i s ih =>
    rw [run_cons] at h
    cases hs : step env i m with
    | error e n => simp [hs] at h
    | ok a n =>
      simp only [hs] at h
      have hi : i.nest m.branches.length = some n.branches.length :=
        Frame.nest_of_step (frame_step_of_ok hs)
      rw [Script.nest, hi, Option.bind_some, ih h]

theorem Script.nested_of_success {env : Env} {s : Script} (h : (execute env s).success = true) :
    s.Nested := by
  obtain ⟨m, hrun, hend⟩ := execute_success_iff.mp h
  have hnest := Machine.nest_of_run hrun
  rw [(Machine.endFault_eq_none_iff.mp hend).1] at hnest
  exact hnest

/-! Scripts that are nested are those that programs flatten to. -/

mutual

theorem Program.nest_script : ∀ (p : Program) (d : Nat), p.script.nest d = some d
  | .done, d => rfl
  | .item i plain next, d => by
    simp [Program.script, Script.nest, Item.nest_plain plain, next.nest_script]
  | .branch sense blocks next, d => by
    simp [Program.script, Script.nest, Item.nest_opener, Script.nest_append, blocks.nest_script,
      next.nest_script]

theorem Blocks.nest_script : ∀ (b : Blocks) (d : Nat), b.script.nest (d + 1) = some d
  | .last body, d => by
    simp [Blocks.script, Script.nest_append, body.nest_script, Script.nest, Item.nest]
  | .orElse body rest, d => by
    simp [Blocks.script, Script.nest_append, body.nest_script, Script.nest, Item.nest,
      rest.nest_script]

end

def Blocks.mapFirst (f : Program → Program) : Blocks → Blocks
  | .last body => .last (f body)
  | .orElse body rest => .orElse (f body) rest

/-- The script closes the blocks of `d` conditionals, and otherwise its own. -/
def Script.Closes : Nat → Script → Prop
  | 0, s => ∃ p : Program, p.script = s
  | d + 1, s => ∃ (b : Blocks) (t : Script), b.script ++ t = s ∧ Closes d t

theorem Script.Closes.prepend {r s : Script} {d : Nat} (f : Program → Program)
    (hf : ∀ p, (f p).script = r ++ p.script) (h : Closes d s) : Closes d (r ++ s) := by
  cases d with
  | zero =>
    obtain ⟨p, rfl⟩ := h
    exact ⟨f p, hf p⟩
  | succ d =>
    obtain ⟨b, t, rfl, ht⟩ := h
    refine ⟨b.mapFirst f, t, ?_, ht⟩
    cases b <;> simp [Blocks.mapFirst, Blocks.script, hf]

theorem Script.closes_of_nest {s : Script} {d : Nat} (h : s.nest d = some 0) : Closes d s := by
  induction s generalizing d with
  | nil =>
    cases h
    exact ⟨.done, rfl⟩
  | cons i s ih =>
    cases hc : i.conditional with
    | false =>
      rw [nest, Item.nest_plain hc] at h
      have hitem (p : Program) : (Program.item i hc p).script = [i] ++ p.script := rfl
      exact (ih h).prepend (.item i hc) hitem
    | true =>
      rcases Item.conditional_cases hc with ⟨sense, rfl⟩ | rfl | rfl
      · rw [nest, Item.nest_opener] at h
        obtain ⟨b, t, rfl, ht⟩ := ih h
        have hbranch (p : Program) : (Program.branch sense b p).script =
            (.op (opener sense) :: b.script) ++ p.script := rfl
        exact ht.prepend (.branch sense b) hbranch
      · cases d with
        | zero => cases h
        | succ d =>
          obtain ⟨b, t, rfl, ht⟩ := ih h
          exact ⟨.orElse .done b, t, rfl, ht⟩
      · cases d with
        | zero => cases h
        | succ d => exact ⟨.last .done, s, rfl, ih h⟩

theorem Script.nested_iff {s : Script} : s.Nested ↔ ∃ p : Program, p.script = s := by
  constructor
  · exact closes_of_nest
  · rintro ⟨p, rfl⟩
    exact p.nest_script 0

/-- Flat runs and evaluations of programs come to the same verdict and the same stacks. The scripts
of programs are those with properly nested conditionals, and no other script succeeds. -/
theorem execute_eq_eval (env : Env) :
    (∀ p : Program, (execute env p.script).success = p.succeeds env ∧
      (execute env p.script).mainStack = (p.final env).main ∧
      (execute env p.script).altStack = (p.final env).alt) ∧
    (∀ s : Script, s.Nested ↔ ∃ p : Program, p.script = s) ∧
    ∀ s : Script, ¬ s.Nested → (execute env s).success = false := by
  refine ⟨?_, fun s => Script.nested_iff, ?_⟩
  · intro p
    obtain ⟨hsuccess, hstack⟩ := p.execute_script env
    exact ⟨hsuccess, congrArg Stacks.main hstack, congrArg Stacks.alt hstack⟩
  · intro s hs
    rw [← Bool.not_eq_true]
    exact fun hsuccess => hs (Script.nested_of_success hsuccess)

/-- Two blocks of three run, one around a conditional of its own; and a conditional that nothing
closes. -/
theorem execute_eq_eval_threeBlocks :
    let env : Env := ⟨.sha256, {}⟩
    let inner : Program := .item (.push []) rfl (.branch false (.last (.item (.push [2]) rfl .done))
      (.item (.op .drop) rfl .done))
    let blocks : Blocks := .orElse inner (.orElse (.item (.op .abort) rfl .done)
      (.last (.item (.op .dup) rfl (.item (.op .equal) rfl .done))))
    let p : Program := .item (.push [7]) rfl (.item (.push [1]) rfl (.branch true blocks .done))
    ((execute env p.script).success = true ∧ (execute env p.script).mainStack = [[1]]) ∧
    ¬ Script.Nested [.push [1], .push [1], .op .ifTrue] ∧
    (execute env [.push [1], .push [1], .op .ifTrue]).success = false := by
  intro env inner blocks p
  obtain ⟨hp, -, hs⟩ := execute_eq_eval env
  have hsucceeds : p.succeeds env = true := rfl
  have hfinal : p.final env = ⟨[[1]], []⟩ := rfl
  have hopen : ¬ Script.Nested [.push [1], .push [1], .op .ifTrue] := by decide
  exact ⟨⟨(hp p).1.trans hsucceeds, (hp p).2.1.trans (congrArg Stacks.main hfinal)⟩, hopen,
    hs _ hopen⟩

end HintScript
