import HintScript.Machine
import HintScript.Proofs.Number
import HintScript.Script

/-! Execution without counters and without a bound on the number of items.

`exec` says what a script does to the two stacks and to the open branches, or that it stops. Laws of
scripts are stated with it; `Shifts` gives the room that a machine needs to follow it.
-/

set_option autoImplicit false

namespace HintScript

/-- What is left of a machine without its counters. -/
structure Frame where
  stack : Stacks
  branches : List Bool := []

def Machine.frame (m : Machine) : Frame := ⟨m.stack, m.branches⟩

namespace Frame

def active (f : Frame) : Bool := f.branches.all id

def openBranch (sense : Bool) (f : Frame) : Option Frame :=
  if f.active then
    match f.stack.main with
    | [] => none
    | c :: rest =>
      if c = [] ∨ c = [1] then
        some ⟨{ f.stack with main := rest }, (decide (c = [1]) == sense) :: f.branches⟩
      else none
  else some ⟨f.stack, false :: f.branches⟩

def turnBranch (f : Frame) : Option Frame :=
  match f.branches with
  | [] => none
  | b :: bs => some ⟨f.stack, (!b) :: bs⟩

def closeBranch (f : Frame) : Option Frame :=
  match f.branches with
  | [] => none
  | _ :: bs => some ⟨f.stack, bs⟩

def acted (env : Env) (item : Item) (st : Stacks) : Option Stacks :=
  match Machine.itemEffect env item st with
  | .ok _ st' => some st'
  | .error _ _ => none

def step (env : Env) (item : Item) (f : Frame) : Option Frame :=
  match item with
  | .op .ifTrue => f.openBranch true
  | .op .ifFalse => f.openBranch false
  | .op .orElse => f.turnBranch
  | .op .endIf => f.closeBranch
  | item => if f.active then (acted env item f.stack).map (⟨·, f.branches⟩) else some f

end Frame

def exec (env : Env) : Script → Frame → Option Frame
  | [], f => some f
  | item :: s, f => (f.step env item).bind (exec env s)

@[simp] theorem exec_nil (env : Env) (f : Frame) : exec env [] f = some f := rfl

theorem exec_cons (env : Env) (item : Item) (s : Script) (f : Frame) :
    exec env (item :: s) f = (f.step env item).bind (exec env s) := rfl

@[simp] theorem exec_append (env : Env) (s t : Script) (f : Frame) :
    exec env (s ++ t) f = (exec env s f).bind (exec env t) := by
  induction s generalizing f with
  | nil => rfl
  | cons item s ih =>
    simp only [List.cons_append, exec_cons, Option.bind_assoc]
    congr 1
    funext g
    exact ih g

def Item.conditional : Item → Bool
  | .op o => o.isConditional
  | .push _ => false

namespace Machine

theorem act_eq (env : Env) (r : Run Unit) (m : Machine) :
    act env r m =
      match r m with
      | .error e m' => .error e m'
      | .ok _ m' =>
        let n := { m' with executed := m'.executed + 1, peak := max m'.peak m'.stack.size }
        if env.limits.stackItems < m'.stack.size then
          .error (.stackTooLarge m'.stack.size env.limits.stackItems) n
        else .ok () n := by
  unfold act account
  simp only [bind, EStateM.bind]
  cases r m with
  | error e m' => rfl
  | ok a m' =>
    simp only [modify, modifyGet, MonadStateOf.modifyGet, EStateM.modifyGet, get, getThe,
      MonadStateOf.get, EStateM.get]
    split
    · rfl
    · rfl

/-- What an item does when it acts, before it is counted. -/
def move (env : Env) : Item → Run Unit
  | .op .ifTrue => openBranch .ifTrue true
  | .op .ifFalse => openBranch .ifFalse false
  | .op .orElse => turnBranch
  | .op .endIf => closeBranch
  | item => onStacks (itemEffect env item)

def passed (m : Machine) : Machine := { m with position := m.position + 1 }

theorem step_plain (env : Env) {item : Item} (hc : item.conditional = false) :
    step env item = (do
      if (← get).active then act env (onStacks (itemEffect env item))
      modify passed) := by
  cases item with
  | push data => rfl
  | op o => cases o <;> first | rfl | cases hc

theorem step_conditional (env : Env) {item : Item} (hc : item.conditional = true) :
    step env item = (do
      act env (move env item)
      modify passed) := by
  cases item with
  | push data => cases hc
  | op o => cases o <;> first | rfl | cases hc

theorem move_plain (env : Env) {item : Item} (hc : item.conditional = false) :
    move env item = onStacks (itemEffect env item) := by
  cases item with
  | push data => rfl
  | op o => cases o <;> first | rfl | cases hc

theorem step_idle {env : Env} {item : Item} {m : Machine} (hc : item.conditional = false)
    (ha : m.active = false) : step env item m = .ok () m.passed := by
  rw [step_plain env hc]
  simp only [bind, EStateM.bind, get, getThe, MonadStateOf.get, EStateM.get, ha]
  rfl

theorem step_acting {env : Env} {item : Item} {m : Machine}
    (h : item.conditional = true ∨ m.active = true) :
    step env item m =
      match act env (move env item) m with
      | .error e m' => .error e m'
      | .ok _ m' => .ok () m'.passed := by
  cases hc : item.conditional with
  | true =>
    rw [step_conditional env hc]
    simp only [bind, EStateM.bind]
    cases act env (move env item) m <;> rfl
  | false =>
    have ha : m.active = true := by simpa [hc] using h
    rw [step_plain env hc, move_plain env hc]
    simp only [bind, EStateM.bind, get, getThe, MonadStateOf.get, EStateM.get, ha, if_true]
    cases act env (onStacks (itemEffect env item)) m <;> rfl

end Machine

theorem Frame.step_plain (env : Env) {item : Item} (hc : item.conditional = false) (f : Frame) :
    f.step env item =
      if f.active then (acted env item f.stack).map (⟨·, f.branches⟩) else some f := by
  cases item with
  | push data => rfl
  | op o => cases o <;> first | rfl | cases hc

namespace Machine

theorem frame_openBranch (code : Opcode) (sense : Bool) (m : Machine) :
    m.frame.openBranch sense =
      match openBranch code sense m with
      | .error _ _ => none
      | .ok _ m' => some m'.frame := by
  unfold openBranch taken Frame.openBranch
  simp only [bind, EStateM.bind, get, getThe, MonadStateOf.get, EStateM.get]
  by_cases ha : m.active = true
  · rw [if_pos (show m.frame.active = true from ha), if_pos ha]
    obtain ⟨⟨main, alt⟩, branches, position, executed, peak⟩ := m
    cases main with
    | nil => rfl
    | cons c rest =>
      by_cases hc : c = [] ∨ c = [1]
      · simp only [frame, onStacks, condition, Effect.pop, Effect.require, bind, EStateM.bind, hc,
          decide_true, if_true, pure, EStateM.pure]
        rfl
      · simp only [frame, onStacks, condition, Effect.pop, Effect.require, bind, EStateM.bind, hc,
          decide_false, Bool.false_eq_true, if_false]
        rfl
  · rw [if_neg (show ¬ m.frame.active = true from ha), if_neg ha]
    rfl

theorem frame_step {env : Env} {item : Item} {m : Machine}
    (h : item.conditional = true ∨ m.active = true) :
    m.frame.step env item =
      match move env item m with
      | .error _ _ => none
      | .ok _ m' => some m'.frame := by
  cases hc : item.conditional with
  | false =>
    have ha : m.active = true := by simpa [hc] using h
    rw [Frame.step_plain env hc, if_pos (show m.frame.active = true from ha), move_plain env hc]
    unfold Frame.acted onStacks
    change Option.map _ (match itemEffect env item m.stack with | .ok _ st => _ | .error _ _ => _) = _
    cases itemEffect env item m.stack <;> rfl
  | true =>
    cases item with
    | push data => cases hc
    | op o =>
      cases o <;> first | cases hc; done | skip
      · exact frame_openBranch .ifTrue true m
      · exact frame_openBranch .ifFalse false m
      · obtain ⟨st, branches, position, executed, peak⟩ := m
        cases branches <;> rfl
      · obtain ⟨st, branches, position, executed, peak⟩ := m
        cases branches <;> rfl

theorem frame_step_idle {env : Env} {item : Item} {m : Machine} (hc : item.conditional = false)
    (ha : m.active = false) : m.frame.step env item = some m.frame := by
  rw [Frame.step_plain env hc]
  exact if_neg (by simpa [frame, Frame.active, active] using ha)

theorem frame_step_of_ok {env : Env} {item : Item} {m m' : Machine}
    (h : step env item m = .ok () m') : m.frame.step env item = some m'.frame := by
  by_cases hi : item.conditional = true ∨ m.active = true
  · rw [step_acting hi, act_eq] at h
    rw [frame_step hi]
    cases hm : move env item m with
    | error e n => simp [hm] at h
    | ok a n =>
      by_cases hs : env.limits.stackItems < n.stack.size
      · simp [hm, hs] at h
      · simp only [hm, if_neg hs, EStateM.Result.ok.injEq, true_and] at h
        subst h
        rfl
  · simp only [not_or, Bool.not_eq_true] at hi
    rw [step_idle hi.1 hi.2] at h
    cases h
    exact frame_step_idle hi.1 hi.2

/-- An item that acts leads to the next frame unless that has too many items. -/
theorem step_or_overflow {env : Env} {item : Item} {m : Machine} {g : Frame}
    (h : m.frame.step env item = some g) :
    (∃ m', step env item m = .ok () m' ∧ m'.frame = g) ∨
      env.limits.stackItems < g.stack.size ∧
        ∃ m', step env item m = .error (.stackTooLarge g.stack.size env.limits.stackItems) m' := by
  by_cases hi : item.conditional = true ∨ m.active = true
  · rw [frame_step hi] at h
    rw [step_acting hi, act_eq]
    cases hm : move env item m with
    | error e n => simp [hm] at h
    | ok a n =>
      simp only [hm, Option.some.injEq] at h
      subst h
      by_cases hs : env.limits.stackItems < n.stack.size
      · simp only [if_pos hs]
        exact .inr ⟨hs, _, rfl⟩
      · simp only [if_neg hs]
        exact .inl ⟨_, rfl, rfl⟩
  · simp only [not_or, Bool.not_eq_true] at hi
    rw [frame_step_idle hi.1 hi.2, Option.some.injEq] at h
    exact .inl ⟨m.passed, step_idle hi.1 hi.2, h⟩

theorem step_of_frame {env : Env} {item : Item} {m : Machine} {g : Frame}
    (h : m.frame.step env item = some g) (hg : (g.stack.size : Int) ≤ env.limits.stackItems) :
    ∃ m', step env item m = .ok () m' ∧ m'.frame = g := by
  rcases step_or_overflow h with hm | ⟨hlarge, -⟩
  · exact hm
  · omega

theorem step_of_frame_none {env : Env} {item : Item} {m : Machine}
    (h : m.frame.step env item = none) : ∃ e m', step env item m = .error e m' := by
  by_cases hi : item.conditional = true ∨ m.active = true
  · rw [frame_step hi] at h
    rw [step_acting hi, act_eq]
    cases hm : move env item m with
    | error e n => exact ⟨e, n, rfl⟩
    | ok a n => simp [hm] at h
  · simp only [not_or, Bool.not_eq_true] at hi
    rw [frame_step_idle hi.1 hi.2] at h
    cases h

theorem run_cons (env : Env) (item : Item) (s : Script) (m : Machine) :
    run env (item :: s) m =
      match step env item m with
      | .error e m' => .error e m'
      | .ok _ m' => run env s m' := by
  simp only [run, bind, EStateM.bind]
  cases step env item m <;> rfl

theorem run_append_eq (env : Env) (s t : Script) (m : Machine) :
    run env (s ++ t) m =
      match run env s m with
      | .error e m' => .error e m'
      | .ok _ m' => run env t m' := by
  rw [run_append]
  simp only [bind, EStateM.bind]
  cases run env s m <;> rfl

section Unused

variable {h h' : Hasher} {limits : Limits} {item : Item} {s : Script}

theorem itemEffect_of_unused (hi : item ≠ .op h.opcode) (hi' : item ≠ .op h'.opcode) :
    itemEffect ⟨h, limits⟩ item = itemEffect ⟨h', limits⟩ item := by
  cases item with
  | push data => rfl
  | op o =>
    have ho : o ≠ h.opcode := fun he => hi (congrArg Item.op he)
    have ho' : o ≠ h'.opcode := fun he => hi' (congrArg Item.op he)
    exact (if_neg ho).trans (if_neg ho').symm

theorem step_of_unused (hi : item ≠ .op h.opcode) (hi' : item ≠ .op h'.opcode) :
    step ⟨h, limits⟩ item = step ⟨h', limits⟩ item := by
  cases hc : item.conditional with
  | false =>
    rw [step_plain _ hc, step_plain _ hc, itemEffect_of_unused hi hi']
    rfl
  | true =>
    rw [step_conditional _ hc, step_conditional _ hc]
    cases item with
    | push data => cases hc
    | op o => cases o <;> first | rfl | cases hc

/-- A script runs alike with any two hashers whose opcodes it does not use. -/
theorem run_of_unused (hs : .op h.opcode ∉ s) (hs' : .op h'.opcode ∉ s) :
    run ⟨h, limits⟩ s = run ⟨h', limits⟩ s := by
  induction s with
  | nil => rfl
  | cons item s ih =>
    rw [List.mem_cons, not_or] at hs hs'
    rw [run, run, step_of_unused (Ne.symm hs.1) (Ne.symm hs'.1), ih hs.2 hs'.2]

end Unused

theorem exec_of_run {env : Env} {s : Script} {m m' : Machine} (h : run env s m = .ok () m') :
    exec env s m.frame = some m'.frame := by
  induction s generalizing m with
  | nil =>
    cases h
    rfl
  | cons item s ih =>
    rw [run_cons] at h
    cases hs : step env item m with
    | error e n => simp [hs] at h
    | ok a n =>
      simp only [hs] at h
      rw [exec_cons, frame_step_of_ok hs]
      exact ih h

end Machine

theorem toOption_eq_some_iff {ε α : Type} {x : Except ε α} {a : α} :
    x.toOption = some a ↔ x = .ok a := by
  cases x <;> simp [Except.toOption]

theorem ite_some_eq_iff {p : Prop} [Decidable p] {f g : Frame} :
    (if p then some g else none) = some f ↔ p ∧ f = g := by
  by_cases h : p
  · rw [if_pos h, Option.some_inj]
    exact ⟨fun he => ⟨h, he.symm⟩, fun he => he.2.symm⟩
  · rw [if_neg h]
    exact ⟨nofun, fun he => absurd he.1 h⟩

theorem bind_eq_some_iff_of {o : Option Frame} {p : Prop} {g f : Frame} {k : Frame → Option Frame}
    (h : ∀ g', o = some g' ↔ p ∧ g' = g) : o.bind k = some f ↔ p ∧ k g = some f := by
  rw [Option.bind_eq_some_iff]
  constructor
  · rintro ⟨g', ho, hf⟩
    obtain ⟨hp, rfl⟩ := (h g').mp ho
    exact ⟨hp, hf⟩
  · rintro ⟨hp, hf⟩
    exact ⟨g, (h g).mpr ⟨hp, rfl⟩, hf⟩

theorem Machine.endFault_eq_none_iff {m : Machine} :
    m.endFault = none ↔ m.branches = [] ∧ ∃ x, m.stack.main = [x] ∧ Number.isTrue x = true := by
  unfold endFault
  by_cases hb : m.branches = []
  · rw [if_neg (by simpa using hb)]
    match hm : m.stack.main with
    | [] => simp
    | [x] =>
      by_cases hx : Number.isTrue x = true
      · simp [hb, hx]
      · simp [hx]
    | _ :: _ :: _ => simp
  · rw [if_pos hb]
    exact ⟨nofun, fun h => absurd h.1 hb⟩

theorem execute_of_run {env : Env} {s : Script} {m : Machine}
    (h : Machine.run env s {} = .ok () m) :
    execute env s = ⟨m.endFault.map fun fault => ⟨fault, none⟩, m⟩ := by
  unfold execute
  rw [h]

theorem execute_success_iff {env : Env} {s : Script} :
    (execute env s).success = true ↔
      ∃ m, Machine.run env s {} = .ok () m ∧ m.endFault = none := by
  unfold execute Outcome.success
  cases hr : Machine.run env s {} with
  | error e m => simp
  | ok a m => simp

/-! ### Single items

The laws below are for machines with the default limits that hash by `sha256`, whatever function
that opcode stands for.
-/

def shaEnv (H : Bytes → Bytes) : Env := ⟨⟨.sha256, H⟩, {}⟩

section Branches

variable {H : Bytes → Bytes} {s : Script} {m l : List Bytes} {st : Stacks} {bs : List Bool}

theorem exec_skip {item : Item} (hc : item.conditional = false) (hb : bs.all id = false) :
    exec (shaEnv H) (item :: s) ⟨st, bs⟩ = exec (shaEnv H) s ⟨st, bs⟩ := by
  have ha : ¬ (⟨st, bs⟩ : Frame).active = true := by
    unfold Frame.active
    rw [hb]
    decide
  rw [exec_cons, Frame.step_plain _ hc, if_neg ha]
  rfl

theorem exec_ifTrue {b : Bool} (hb : bs.all id = true) :
    exec (shaEnv H) (.op .ifTrue :: s) ⟨⟨Number.ofBool b :: m, l⟩, bs⟩ =
      exec (shaEnv H) s ⟨⟨m, l⟩, b :: bs⟩ := by
  have ho : (⟨⟨Number.ofBool b :: m, l⟩, bs⟩ : Frame).openBranch true =
      some ⟨⟨m, l⟩, b :: bs⟩ := by
    unfold Frame.openBranch
    rw [if_pos (by exact hb)]
    cases b <;> rfl
  rw [exec_cons]
  exact congrArg (fun o => Option.bind o (exec (shaEnv H) s)) ho

theorem exec_ifFalse {b : Bool} (hb : bs.all id = true) :
    exec (shaEnv H) (.op .ifFalse :: s) ⟨⟨Number.ofBool b :: m, l⟩, bs⟩ =
      exec (shaEnv H) s ⟨⟨m, l⟩, (!b) :: bs⟩ := by
  have ho : (⟨⟨Number.ofBool b :: m, l⟩, bs⟩ : Frame).openBranch false =
      some ⟨⟨m, l⟩, (!b) :: bs⟩ := by
    unfold Frame.openBranch
    rw [if_pos (by exact hb)]
    cases b <;> rfl
  rw [exec_cons]
  exact congrArg (fun o => Option.bind o (exec (shaEnv H) s)) ho

theorem exec_orElse {b : Bool} :
    exec (shaEnv H) (.op .orElse :: s) ⟨st, b :: bs⟩ = exec (shaEnv H) s ⟨st, (!b) :: bs⟩ := rfl

theorem exec_endIf {b : Bool} :
    exec (shaEnv H) (.op .endIf :: s) ⟨st, b :: bs⟩ = exec (shaEnv H) s ⟨st, bs⟩ := rfl

end Branches

namespace Effect

variable {m l : List Bytes} {x : Bytes} {v : Int}

theorem popNum_ok (h : Number.decode x Number.sizeLimit = .ok v) :
    popNum {} ⟨x :: m, l⟩ = .ok v ⟨m, l⟩ := by
  have h' : Number.decode x ({} : Limits).numSize = .ok v := h
  simp only [popNum, pop, bind, EStateM.bind, h']
  rfl

theorem popNum_error {e : NumberError} (h : Number.decode x Number.sizeLimit = .error e) :
    popNum {} ⟨x :: m, l⟩ = .error (.num e) ⟨m, l⟩ := by
  have h' : Number.decode x ({} : Limits).numSize = .error e := h
  simp only [popNum, pop, bind, EStateM.bind, h']
  rfl

theorem popNum_encode (hv : v.natAbs < 2 ^ 31) :
    popNum {} ⟨Number.encode v :: m, l⟩ = .ok v ⟨m, l⟩ :=
  popNum_ok (Number.decode_encode_small hv)

theorem popIndex_encode {code : Opcode} {n : Nat} (hn : n < 2 ^ 31) :
    popIndex {} code ⟨Number.encode n :: m, l⟩ = .ok n ⟨m, l⟩ := by
  have hv : (n : Int).natAbs < 2 ^ 31 := by omega
  simp only [popIndex, bind, EStateM.bind, popNum_encode hv, require]
  simp [pure, EStateM.pure]

end Effect

section Items

open Number Script

theorem times_succ_right (n : Nat) (s : Script) : times (n + 1) s = times n s ++ s := by
  unfold times
  rw [List.replicate_succ', List.flatten_append, List.flatten_singleton]

variable {H : Bytes → Bytes} {os : List Opcode} {m l : List Bytes} {st st' : Stacks}
variable {x y z : Bytes} {u v w : Int} {o : Opcode}

@[simp] theorem exec_ops_nil {f : Frame} : exec (shaEnv H) (ops []) f = some f := rfl

theorem exec_op (ho : o.isConditional = false) :
    exec (shaEnv H) (ops (o :: os)) ⟨st, []⟩ =
      (Frame.acted (shaEnv H) (.op o) st).bind fun st' => exec (shaEnv H) (ops os) ⟨st', []⟩ := by
  have hc : (Item.op o).conditional = false := ho
  change exec (shaEnv H) (.op o :: ops os) ⟨st, []⟩ = _
  rw [exec_cons, Frame.step_plain _ hc, if_pos (by rfl)]
  cases Frame.acted (shaEnv H) (.op o) st <;> rfl

theorem exec_of_effect (ho : o.isConditional = false) (hs : o ≠ .sha256)
    (he : o.effect {} st = .ok () st') :
    exec (shaEnv H) (ops (o :: os)) ⟨st, []⟩ = exec (shaEnv H) (ops os) ⟨st', []⟩ := by
  have hi : Machine.itemEffect (shaEnv H) (.op o) = o.effect {} := if_neg hs
  rw [exec_op ho]
  unfold Frame.acted
  rw [hi, he]
  rfl

theorem exec_of_fault (ho : o.isConditional = false) (hs : o ≠ .sha256)
    (he : ∃ fault st', o.effect {} st = .error fault st') :
    exec (shaEnv H) (ops (o :: os)) ⟨st, []⟩ = none := by
  obtain ⟨fault, st', he⟩ := he
  have hi : Machine.itemEffect (shaEnv H) (.op o) = o.effect {} := if_neg hs
  rw [exec_op ho]
  unfold Frame.acted
  rw [hi, he]
  rfl

@[simp] theorem exec_dup :
    exec (shaEnv H) (ops (.dup :: os)) ⟨⟨x :: m, l⟩, []⟩ =
      exec (shaEnv H) (ops os) ⟨⟨x :: x :: m, l⟩, []⟩ := rfl

@[simp] theorem exec_over1 :
    exec (shaEnv H) (ops (.over1 :: os)) ⟨⟨y :: x :: m, l⟩, []⟩ =
      exec (shaEnv H) (ops os) ⟨⟨x :: y :: x :: m, l⟩, []⟩ := rfl

@[simp] theorem exec_dup2 :
    exec (shaEnv H) (ops (.dup2 :: os)) ⟨⟨y :: x :: m, l⟩, []⟩ =
      exec (shaEnv H) (ops os) ⟨⟨y :: x :: y :: x :: m, l⟩, []⟩ := rfl

@[simp] theorem exec_swap :
    exec (shaEnv H) (ops (.swap :: os)) ⟨⟨y :: x :: m, l⟩, []⟩ =
      exec (shaEnv H) (ops os) ⟨⟨x :: y :: m, l⟩, []⟩ := rfl

@[simp] theorem exec_rot :
    exec (shaEnv H) (ops (.rot :: os)) ⟨⟨z :: y :: x :: m, l⟩, []⟩ =
      exec (shaEnv H) (ops os) ⟨⟨x :: z :: y :: m, l⟩, []⟩ := rfl

@[simp] theorem exec_drop :
    exec (shaEnv H) (ops (.drop :: os)) ⟨⟨x :: m, l⟩, []⟩ =
      exec (shaEnv H) (ops os) ⟨⟨m, l⟩, []⟩ := rfl

@[simp] theorem exec_toAlt :
    exec (shaEnv H) (ops (.toAlt :: os)) ⟨⟨x :: m, l⟩, []⟩ =
      exec (shaEnv H) (ops os) ⟨⟨m, x :: l⟩, []⟩ := rfl

@[simp] theorem exec_fromAlt :
    exec (shaEnv H) (ops (.fromAlt :: os)) ⟨⟨m, x :: l⟩, []⟩ =
      exec (shaEnv H) (ops os) ⟨⟨x :: m, l⟩, []⟩ := rfl

@[simp] theorem exec_depth :
    exec (shaEnv H) (ops (.depth :: os)) ⟨⟨m, l⟩, []⟩ =
      exec (shaEnv H) (ops os) ⟨⟨encode m.length :: m, l⟩, []⟩ := rfl

@[simp] theorem exec_size :
    exec (shaEnv H) (ops (.size :: os)) ⟨⟨x :: m, l⟩, []⟩ =
      exec (shaEnv H) (ops os) ⟨⟨encode x.length :: x :: m, l⟩, []⟩ := rfl

@[simp] theorem exec_sha256 :
    exec (shaEnv H) (ops (.sha256 :: os)) ⟨⟨x :: m, l⟩, []⟩ =
      exec (shaEnv H) (ops os) ⟨⟨H x :: m, l⟩, []⟩ := rfl

@[simp] theorem exec_equal :
    exec (shaEnv H) (ops (.equal :: os)) ⟨⟨y :: x :: m, l⟩, []⟩ =
      exec (shaEnv H) (ops os) ⟨⟨ofBool (y = x) :: m, l⟩, []⟩ := rfl

theorem exec_equalVerify :
    exec (shaEnv H) (ops (.equalVerify :: os)) ⟨⟨y :: x :: m, l⟩, []⟩ =
      if y = x then exec (shaEnv H) (ops os) ⟨⟨m, l⟩, []⟩ else none := by
  by_cases h : y = x
  · rw [if_pos h]
    refine exec_of_effect rfl (by decide) ?_
    unfold Opcode.effect
    simp [Effect.pop, Effect.require, bind, EStateM.bind, h, pure, EStateM.pure]
  · rw [if_neg h]
    refine exec_of_fault rfl (by decide) ⟨.failed .equalVerify, ⟨m, l⟩, ?_⟩
    unfold Opcode.effect
    simp only [Effect.pop, Effect.require, bind, EStateM.bind, h]
    rfl

theorem exec_verify :
    exec (shaEnv H) (ops (.verify :: os)) ⟨⟨x :: m, l⟩, []⟩ =
      if isTrue x then exec (shaEnv H) (ops os) ⟨⟨m, l⟩, []⟩ else none := by
  by_cases h : isTrue x = true
  · rw [if_pos h]
    refine exec_of_effect rfl (by decide) ?_
    unfold Opcode.effect
    simp [Effect.pop, Effect.require, bind, EStateM.bind, h, pure, EStateM.pure]
  · rw [if_neg h]
    refine exec_of_fault rfl (by decide) ⟨.failed .verify, ⟨m, l⟩, ?_⟩
    unfold Opcode.effect
    simp only [Effect.pop, Effect.require, bind, EStateM.bind, h]
    rfl

theorem exec_cat :
    exec (shaEnv H) (ops (.cat :: os)) ⟨⟨y :: x :: m, l⟩, []⟩ =
      if x.length + y.length ≤ 520 then exec (shaEnv H) (ops os) ⟨⟨(x ++ y) :: m, l⟩, []⟩
      else none := by
  by_cases h : x.length + y.length ≤ 520
  · have hl : (x.length : Int) + y.length ≤ ({} : Limits).elementSize := by
      change (x.length : Int) + y.length ≤ 520
      omega
    rw [if_pos h]
    refine exec_of_effect rfl (by decide) ?_
    unfold Opcode.effect
    simp [Effect.pop, Effect.require, bind, EStateM.bind, hl, pure, EStateM.pure,
      Effect.push]
  · have hl : ¬ (x.length : Int) + y.length ≤ ({} : Limits).elementSize := by
      change ¬ (x.length : Int) + y.length ≤ 520
      omega
    rw [if_neg h]
    refine exec_of_fault rfl (by decide) ⟨.catTooLong, ⟨m, l⟩, ?_⟩
    unfold Opcode.effect
    simp only [Effect.pop, Effect.require, bind, EStateM.bind, hl]
    rfl

theorem exec_unary {f : Int → Int} (ho : o.isConditional = false) (hs : o ≠ .sha256)
    (he : o.effect {} = Effect.unary {} f) (hx : decode x sizeLimit = .ok v) :
    exec (shaEnv H) (ops (o :: os)) ⟨⟨x :: m, l⟩, []⟩ =
      exec (shaEnv H) (ops os) ⟨⟨encode (f v) :: m, l⟩, []⟩ := by
  refine exec_of_effect ho hs ?_
  rw [he]
  simp only [Effect.unary, bind, EStateM.bind, Effect.popNum_ok hx]
  rfl

theorem exec_binary {f : Int → Int → Int} (ho : o.isConditional = false) (hs : o ≠ .sha256)
    (he : o.effect {} = Effect.binary {} f) (hx : decode x sizeLimit = .ok v)
    (hw : w.natAbs < 2 ^ 31) :
    exec (shaEnv H) (ops (o :: os)) ⟨⟨encode w :: x :: m, l⟩, []⟩ =
      exec (shaEnv H) (ops os) ⟨⟨encode (f v w) :: m, l⟩, []⟩ := by
  refine exec_of_effect ho hs ?_
  rw [he]
  simp only [Effect.binary, bind, EStateM.bind, Effect.popNum_encode hw, Effect.popNum_ok hx]
  rfl

theorem exec_binary_none {f : Int → Int → Int} {e : NumberError} (ho : o.isConditional = false)
    (hs : o ≠ .sha256) (he : o.effect {} = Effect.binary {} f) (hx : decode x sizeLimit = .error e)
    (hw : w.natAbs < 2 ^ 31) :
    exec (shaEnv H) (ops (o :: os)) ⟨⟨encode w :: x :: m, l⟩, []⟩ = none := by
  refine exec_of_fault ho hs ⟨.num e, ⟨m, l⟩, ?_⟩
  rw [he]
  simp only [Effect.binary, bind, EStateM.bind, Effect.popNum_encode hw, Effect.popNum_error hx]

theorem exec_abs (hx : decode x sizeLimit = .ok v) :
    exec (shaEnv H) (ops (.abs :: os)) ⟨⟨x :: m, l⟩, []⟩ =
      exec (shaEnv H) (ops os) ⟨⟨encode v.natAbs :: m, l⟩, []⟩ :=
  exec_unary (f := fun a => a.natAbs) rfl (by decide) rfl hx

theorem exec_abs_none {e : NumberError} (hx : decode x sizeLimit = .error e) :
    exec (shaEnv H) (ops (.abs :: os)) ⟨⟨x :: m, l⟩, []⟩ = none := by
  refine exec_of_fault rfl (by decide) ⟨.num e, ⟨m, l⟩, ?_⟩
  unfold Opcode.effect
  simp only [Effect.unary, bind, EStateM.bind, Effect.popNum_error hx]

theorem exec_sub1 (hv : v.natAbs < 2 ^ 31) :
    exec (shaEnv H) (ops (.sub1 :: os)) ⟨⟨encode v :: m, l⟩, []⟩ =
      exec (shaEnv H) (ops os) ⟨⟨encode (v - 1) :: m, l⟩, []⟩ :=
  exec_unary (f := (· - 1)) rfl (by decide) rfl (decode_encode_small hv)

theorem exec_not (hv : v.natAbs < 2 ^ 31) :
    exec (shaEnv H) (ops (.not :: os)) ⟨⟨encode v :: m, l⟩, []⟩ =
      exec (shaEnv H) (ops os) ⟨⟨ofBool (v = 0) :: m, l⟩, []⟩ := by
  rw [← encode_flag]
  exact exec_unary (f := fun a => flag (a = 0)) rfl (by decide) rfl (decode_encode_small hv)

theorem exec_add (hv : v.natAbs < 2 ^ 31) (hw : w.natAbs < 2 ^ 31) :
    exec (shaEnv H) (ops (.add :: os)) ⟨⟨encode w :: encode v :: m, l⟩, []⟩ =
      exec (shaEnv H) (ops os) ⟨⟨encode (v + w) :: m, l⟩, []⟩ :=
  exec_binary (f := (· + ·)) rfl (by decide) rfl (decode_encode_small hv) hw

theorem exec_sub (hv : v.natAbs < 2 ^ 31) (hw : w.natAbs < 2 ^ 31) :
    exec (shaEnv H) (ops (.sub :: os)) ⟨⟨encode w :: encode v :: m, l⟩, []⟩ =
      exec (shaEnv H) (ops os) ⟨⟨encode (v - w) :: m, l⟩, []⟩ :=
  exec_binary (f := (· - ·)) rfl (by decide) rfl (decode_encode_small hv) hw

theorem exec_less (hv : v.natAbs < 2 ^ 31) (hw : w.natAbs < 2 ^ 31) :
    exec (shaEnv H) (ops (.less :: os)) ⟨⟨encode w :: encode v :: m, l⟩, []⟩ =
      exec (shaEnv H) (ops os) ⟨⟨ofBool (v < w) :: m, l⟩, []⟩ := by
  rw [← encode_flag]
  exact exec_binary (f := fun a b => flag (a < b)) rfl (by decide) rfl (decode_encode_small hv) hw

theorem exec_greaterEq (hx : decode x sizeLimit = .ok v) (hw : w.natAbs < 2 ^ 31) :
    exec (shaEnv H) (ops (.greaterEq :: os)) ⟨⟨encode w :: x :: m, l⟩, []⟩ =
      exec (shaEnv H) (ops os) ⟨⟨ofBool (v ≥ w) :: m, l⟩, []⟩ := by
  rw [← encode_flag]
  exact exec_binary (f := fun a b => flag (a ≥ b)) rfl (by decide) rfl hx hw

theorem exec_greaterEq_none {e : NumberError} (hx : decode x sizeLimit = .error e)
    (hw : w.natAbs < 2 ^ 31) :
    exec (shaEnv H) (ops (.greaterEq :: os)) ⟨⟨encode w :: x :: m, l⟩, []⟩ = none :=
  exec_binary_none (f := fun a b => flag (a ≥ b)) rfl (by decide) rfl hx hw

theorem exec_within (hx : decode x sizeLimit = .ok u) (hv : v.natAbs < 2 ^ 31)
    (hw : w.natAbs < 2 ^ 31) :
    exec (shaEnv H) (ops (.within :: os)) ⟨⟨encode w :: encode v :: x :: m, l⟩, []⟩ =
      exec (shaEnv H) (ops os) ⟨⟨ofBool (v ≤ u ∧ u < w) :: m, l⟩, []⟩ := by
  refine exec_of_effect rfl (by decide) ?_
  unfold Opcode.effect
  simp only [bind, EStateM.bind, Effect.popNum_encode hw, Effect.popNum_encode hv,
    Effect.popNum_ok hx]
  rfl

theorem exec_within_none {e : NumberError} (hx : decode x sizeLimit = .error e)
    (hv : v.natAbs < 2 ^ 31) (hw : w.natAbs < 2 ^ 31) :
    exec (shaEnv H) (ops (.within :: os)) ⟨⟨encode w :: encode v :: x :: m, l⟩, []⟩ = none := by
  refine exec_of_fault rfl (by decide) ⟨.num e, ⟨m, l⟩, ?_⟩
  unfold Opcode.effect
  simp only [bind, EStateM.bind, Effect.popNum_encode hw, Effect.popNum_encode hv,
    Effect.popNum_error hx]

theorem exec_roll {n : Nat} (hn : n < 2 ^ 31) (hx : m[n]? = some x) :
    exec (shaEnv H) (ops (.roll :: os)) ⟨⟨encode n :: m, l⟩, []⟩ =
      exec (shaEnv H) (ops os) ⟨⟨x :: m.eraseIdx n, l⟩, []⟩ := by
  refine exec_of_effect rfl (by decide) ?_
  unfold Opcode.effect
  simp only [bind, EStateM.bind, Effect.popIndex_encode hn, Effect.move, hx]

theorem exec_pick {n : Nat} (hn : n < 2 ^ 31) (hx : m[n]? = some x) :
    exec (shaEnv H) (ops (.pick :: os)) ⟨⟨encode n :: m, l⟩, []⟩ =
      exec (shaEnv H) (ops os) ⟨⟨x :: m, l⟩, []⟩ := by
  refine exec_of_effect rfl (by decide) ?_
  unfold Opcode.effect
  simp only [bind, EStateM.bind, Effect.popIndex_encode hn, Effect.copy,
    Effect.peek, hx, Effect.push]

theorem exec_bytes (hx : x.length ≤ 520) :
    exec (shaEnv H) (bytes x) ⟨⟨m, l⟩, []⟩ = some ⟨⟨x :: m, l⟩, []⟩ := by
  have hl : (x.length : Int) ≤ (shaEnv H).limits.elementSize := by
    change (x.length : Int) ≤ 520
    omega
  have ha : Frame.acted (shaEnv H) (.push x) ⟨m, l⟩ = some ⟨x :: m, l⟩ := by
    simp only [Frame.acted, Machine.itemEffect, Effect.require, decide_eq_true hl, if_true]
    rfl
  change (Option.map _ (Frame.acted (shaEnv H) (.push x) ⟨m, l⟩)).bind _ = _
  rw [ha]
  rfl

theorem exec_bytes_none (hx : 520 < x.length) :
    exec (shaEnv H) (bytes x) ⟨⟨m, l⟩, []⟩ = none := by
  have hl : ¬ (x.length : Int) ≤ (shaEnv H).limits.elementSize := by
    change ¬ (x.length : Int) ≤ 520
    omega
  have ha : Frame.acted (shaEnv H) (.push x) ⟨m, l⟩ = none := by
    simp only [Frame.acted, Machine.itemEffect, Effect.require, decide_eq_false hl]
    rfl
  change (Option.map _ (Frame.acted (shaEnv H) (.push x) ⟨m, l⟩)).bind _ = _
  rw [ha]
  rfl

theorem exec_pushes {m : List Bytes} (xs : List Bytes) :
    exec (shaEnv H) (pushes xs) ⟨⟨m, l⟩, []⟩ =
      if ∀ x ∈ xs, x.length ≤ 520 then some ⟨⟨xs.reverse ++ m, l⟩, []⟩ else none := by
  induction xs generalizing m with
  | nil => simp [pushes]
  | cons x xs ih =>
    change exec (shaEnv H) (bytes x ++ pushes xs) _ = _
    rw [exec_append]
    have hiff : (∀ y ∈ x :: xs, y.length ≤ 520) ↔ x.length ≤ 520 ∧ ∀ y ∈ xs, y.length ≤ 520 :=
      List.forall_mem_cons
    by_cases hx : x.length ≤ 520
    · rw [exec_bytes hx, Option.bind_some, ih]
      by_cases hxs : ∀ y ∈ xs, y.length ≤ 520
      · rw [if_pos hxs, if_pos (hiff.mpr ⟨hx, hxs⟩), List.reverse_cons, List.append_assoc]
        rfl
      · rw [if_neg hxs, if_neg fun h => hxs (hiff.mp h).2]
    · rw [exec_bytes_none (by omega), if_neg fun h => hx (hiff.mp h).1]
      rfl

theorem exec_num (hv : v.natAbs < 2 ^ 31) :
    exec (shaEnv H) (num v) ⟨⟨m, l⟩, []⟩ = some ⟨⟨encode v :: m, l⟩, []⟩ := by
  have hw := width_le_four hv
  exact exec_bytes (by rw [length_encode]; omega)

/-- Rolls the item that lies under those of `xs` to the top. -/
theorem exec_rollFrom {xs : List Bytes} {n : Nat} (hx : xs.length = n) (hn : n < 2 ^ 31) :
    exec (shaEnv H) (num n ++ ops [.roll]) ⟨⟨xs ++ x :: m, l⟩, []⟩ =
      some ⟨⟨x :: (xs ++ m), l⟩, []⟩ := by
  subst hx
  rw [exec_append, exec_num (by omega), Option.bind_some, exec_roll (x := x) hn (by simp),
    List.eraseIdx_append_of_length_le (Nat.le_refl _)]
  simp

theorem exec_times_cat (xs : List Bytes) {y : Bytes}
    (hy : xs.reverse.flatten.length + y.length ≤ 520) :
    exec (shaEnv H) (times xs.length (ops [.cat])) ⟨⟨y :: (xs ++ m), l⟩, []⟩ =
      some ⟨⟨(xs.reverse.flatten ++ y) :: m, l⟩, []⟩ := by
  induction xs generalizing y with
  | nil => rfl
  | cons x xs ih =>
    simp only [List.flatten_cons, List.length_append, List.reverse_cons, List.flatten_append,
      List.flatten_nil, List.append_nil] at hy
    rw [List.length_cons, times_succ, exec_append, List.cons_append, exec_cat,
      if_pos (by omega), exec_ops_nil, Option.bind_some,
      ih (by rw [List.length_append]; omega)]
    simp

theorem exec_fetch (hm : m.length < 2 ^ 31 - 1) :
    exec (shaEnv H) fetch ⟨⟨m ++ [x], l⟩, []⟩ = some ⟨⟨x :: m, l⟩, []⟩ := by
  have hlen : ((m ++ [x]).length : Int) - 1 = (m.length : Nat) := by
    simp
  unfold fetch
  rw [exec_depth, exec_sub1 (by simp; omega), hlen, exec_roll (x := x) (by omega) (by simp),
    List.eraseIdx_append_of_length_le (Nat.le_refl _)]
  simp

/-- Fetching keeps the order of the items it brings up. -/
theorem exec_times_fetch {m : List Bytes} (xs : List Bytes)
    (hm : m.length + xs.length < 2 ^ 31) :
    exec (shaEnv H) (times xs.length fetch) ⟨⟨m ++ xs.reverse, l⟩, []⟩ =
      some ⟨⟨xs.reverse ++ m, l⟩, []⟩ := by
  induction xs generalizing m with
  | nil => simp
  | cons x xs ih =>
    rw [List.length_cons] at hm ⊢
    rw [times_succ, exec_append, List.reverse_cons, ← List.append_assoc,
      exec_fetch (by simp; omega), Option.bind_some, ← List.cons_append,
      ih (by rw [List.length_cons]; omega)]
    simp

theorem exec_times_fromAlt {α : Type} {s : Script} {f g : α → Bytes} (as : List α)
    {m : List Bytes} (hs : ∀ a ∈ as, ∀ m l : List Bytes,
      exec (shaEnv H) s ⟨⟨f a :: m, l⟩, []⟩ = some ⟨⟨g a :: m, l⟩, []⟩) :
    exec (shaEnv H) (times as.length (ops [.fromAlt] ++ s)) ⟨⟨m, as.map f ++ l⟩, []⟩ =
      some ⟨⟨(as.map g).reverse ++ m, l⟩, []⟩ := by
  induction as generalizing m with
  | nil => simp
  | cons a as ih =>
    rw [List.length_cons, times_succ, exec_append, exec_append, List.map_cons, List.cons_append,
      exec_fromAlt, exec_ops_nil, Option.bind_some, hs a (by simp), Option.bind_some,
      ih fun a ha => hs a (by simp [ha])]
    simp

theorem exec_times_toAlt {α : Type} {s : Script} {f g : α → Bytes} (as : List α)
    {l : List Bytes} (hs : ∀ a ∈ as, ∀ m l : List Bytes,
      exec (shaEnv H) s ⟨⟨f a :: m, l⟩, []⟩ = some ⟨⟨g a :: m, l⟩, []⟩) :
    exec (shaEnv H) (times as.length (s ++ ops [.toAlt])) ⟨⟨as.map f ++ m, l⟩, []⟩ =
      some ⟨⟨m, (as.map g).reverse ++ l⟩, []⟩ := by
  induction as generalizing l with
  | nil => simp
  | cons a as ih =>
    rw [List.length_cons, times_succ, exec_append, exec_append, List.map_cons, List.cons_append,
      hs a (by simp), Option.bind_some, exec_toAlt, exec_ops_nil, Option.bind_some,
      ih fun a ha => hs a (by simp [ha])]
    simp

end Items

end HintScript
