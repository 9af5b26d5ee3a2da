import HintScript.Proofs.Peak

/-! Stack sizes known before a script runs.

`Shifts s d a p` says that `s` closes the branches it opens, changes the sizes of the main and the
alt stack by `d` and `a` whatever it finds there, and meanwhile needs room for at most `p` further
items. It is derived along the structure of the script, one rule for each way to put scripts
together.
-/

set_option autoImplicit false

namespace HintScript

def Effect.Shifts {α : Type} (e : Effect α) (d a : Int) : Prop :=
  ∀ st x st', e st = .ok x st' →
    (st'.main.length : Int) = st.main.length + d ∧ (st'.alt.length : Int) = st.alt.length + a

namespace Effect.Shifts

variable {α β : Type} {e : Effect α} {d a d' a' : Int}

theorem bind {k : α → Effect β} (he : Effect.Shifts e d a) (hk : ∀ x, Effect.Shifts (k x) d' a') :
    Effect.Shifts (e >>= k) (d + d') (a + a') := by
  intro st y st' h
  simp only [Bind.bind, EStateM.bind] at h
  cases h₁ : e st with
  | error f st₁ => simp [h₁] at h
  | ok x st₁ =>
    simp only [h₁] at h
    have h₂ := he st x st₁ h₁
    have h₃ := hk x st₁ y st' h
    omega

theorem of_eq (h : Effect.Shifts e d a) (hd : d = d') (ha : a = a') : Effect.Shifts e d' a' := by
  subst hd ha
  exact h

theorem pure (x : α) : Effect.Shifts (Pure.pure x) 0 0 := by
  intro st y st' h
  cases h
  omega

theorem throw (f : Fault) : Effect.Shifts (throw f : Effect α) d a := by
  intro st y st' h
  cases h

theorem push (x : Bytes) : Effect.Shifts (Effect.push x) 1 0 := by
  intro st y st' h
  cases h
  simp

theorem pop : Effect.Shifts Effect.pop (-1) 0 := by
  intro st x st' h
  obtain ⟨main, alt⟩ := st
  cases main with
  | nil => cases h
  | cons y rest =>
    cases h
    simp only [List.length_cons]
    omega

theorem peek (i : Nat) : Effect.Shifts (Effect.peek i) 0 0 := by
  intro st x st' h
  unfold Effect.peek at h
  split at h
  · cases h
  · cases h
    omega

theorem copy (i : Nat) : Effect.Shifts (Effect.copy i) 1 0 :=
  ((peek i).bind push).of_eq (by omega) (by omega)

theorem move (i : Nat) : Effect.Shifts (Effect.move i) 0 0 := by
  intro st x st' h
  unfold Effect.move at h
  split at h
  · cases h
  · rename_i y hy
    cases h
    obtain ⟨hi, _⟩ := List.getElem?_eq_some_iff.mp hy
    simp only [List.length_cons, List.length_eraseIdx_of_lt hi]
    omega

theorem toAlt : Effect.Shifts Effect.toAlt (-1) 1 := by
  intro st x st' h
  obtain ⟨main, alt⟩ := st
  cases main with
  | nil => cases h
  | cons y rest =>
    cases h
    simp only [List.length_cons]
    omega

theorem fromAlt : Effect.Shifts Effect.fromAlt 1 (-1) := by
  intro st x st' h
  obtain ⟨main, alt⟩ := st
  cases alt with
  | nil => cases h
  | cons y rest =>
    cases h
    simp only [List.length_cons]
    omega

theorem depth : Effect.Shifts Effect.depth 0 0 := by
  intro st x st' h
  cases h
  omega

theorem pushNum (v : Int) : Effect.Shifts (Effect.pushNum v) 1 0 := push _

theorem popNum (limits : Limits) : Effect.Shifts (Effect.popNum limits) (-1) 0 := by
  refine (pop.bind fun x => ?_).of_eq (d := -1 + 0) (a := 0 + 0) (by omega) (by omega)
  split
  · exact pure _
  · exact throw _

theorem unary (limits : Limits) (f : Int → Int) : Effect.Shifts (Effect.unary limits f) 0 0 :=
  ((popNum limits).bind fun v => pushNum (f v)).of_eq (by omega) (by omega)

theorem binary (limits : Limits) (f : Int → Int → Int) :
    Effect.Shifts (Effect.binary limits f) (-1) 0 :=
  ((popNum limits).bind fun w => (popNum limits).bind fun v => pushNum (f v w)).of_eq
    (by omega) (by omega)

theorem require (condition : Bool) (fault : Fault) :
    Effect.Shifts (Effect.require condition fault) 0 0 := by
  unfold Effect.require
  split
  · exact pure ()
  · exact throw fault

theorem popIndex (limits : Limits) (code : Opcode) :
    Effect.Shifts (Effect.popIndex limits code) (-1) 0 :=
  ((popNum limits).bind fun n => (require _ _).bind fun _ => pure n.toNat).of_eq
    (by omega) (by omega)

end Effect.Shifts

/-- Changes of the stack sizes by an opcode, where they do not depend on the stacks. -/
def Opcode.shift : Opcode → Option (Int × Int)
  | .nop | .rot2 | .swap2 | .rot | .swap | .pick => some (0, 0)
  | .add1 | .sub1 | .negate | .abs | .not | .notZero | .sha256 => some (0, 0)
  | .toAlt => some (-1, 1)
  | .fromAlt => some (1, -1)
  | .dup | .over1 | .depth | .size | .tuck => some (1, 0)
  | .dup2 | .over2 => some (2, 0)
  | .dup3 => some (3, 0)
  | .verify | .drop | .nip | .roll | .cat | .equal => some (-1, 0)
  | .add | .sub | .boolAnd | .boolOr | .numEqual | .numNotEqual => some (-1, 0)
  | .less | .greater | .lessEq | .greaterEq | .min | .max => some (-1, 0)
  | .drop2 | .equalVerify | .numEqualVerify | .within => some (-2, 0)
  | _ => none

open Effect.Shifts in
theorem Opcode.effect_shifts {limits : Limits} {o : Opcode} {d a : Int} (ho : o ≠ .sha256)
    (h : o.shift = some (d, a)) : Effect.Shifts (o.effect limits) d a := by
  cases o <;> cases h <;> try contradiction
  case nop => exact pure ()
  case verify => exact (pop.bind fun x => require _ _).of_eq (by omega) (by omega)
  case toAlt => exact Effect.Shifts.toAlt
  case fromAlt => exact Effect.Shifts.fromAlt
  case drop2 => exact (pop.bind fun _ => pop.bind fun _ => pure ()).of_eq (by omega) (by omega)
  case dup2 => exact ((copy 1).bind fun _ => copy 1).of_eq (by omega) (by omega)
  case dup3 =>
    exact ((copy 2).bind fun _ => (copy 2).bind fun _ => copy 2).of_eq (by omega) (by omega)
  case over2 => exact ((copy 3).bind fun _ => copy 3).of_eq (by omega) (by omega)
  case rot2 => exact ((move 5).bind fun _ => move 5).of_eq (by omega) (by omega)
  case swap2 => exact ((move 3).bind fun _ => move 3).of_eq (by omega) (by omega)
  case depth => exact (Effect.Shifts.depth.bind fun n => pushNum n).of_eq (by omega) (by omega)
  case drop => exact (pop.bind fun _ => pure ()).of_eq (by omega) (by omega)
  case dup => exact copy 0
  case nip => exact (pop.bind fun _ => pop.bind fun _ => push _).of_eq (by omega) (by omega)
  case over1 => exact copy 1
  case pick => exact ((popIndex _ _).bind fun n => copy n).of_eq (by omega) (by omega)
  case roll => exact ((popIndex _ _).bind fun n => move n).of_eq (by omega) (by omega)
  case rot => exact move 2
  case swap => exact move 1
  case tuck =>
    exact (pop.bind fun _ => pop.bind fun _ => (push _).bind fun _ => (push _).bind fun _ =>
      push _).of_eq (by omega) (by omega)
  case cat =>
    exact (pop.bind fun _ => pop.bind fun _ => (require _ _).bind fun _ => push _).of_eq
      (by omega) (by omega)
  case size => exact ((peek 0).bind fun x => pushNum x.length).of_eq (by omega) (by omega)
  case equal => exact (pop.bind fun _ => pop.bind fun _ => push _).of_eq (by omega) (by omega)
  case equalVerify =>
    exact (pop.bind fun _ => pop.bind fun _ => require _ _).of_eq (by omega) (by omega)
  case numEqualVerify =>
    exact ((popNum _).bind fun _ => (popNum _).bind fun _ => require _ _).of_eq
      (by omega) (by omega)
  case within =>
    exact ((popNum _).bind fun _ => (popNum _).bind fun _ => (popNum _).bind fun _ =>
      push _).of_eq (by omega) (by omega)
  all_goals first
    | exact unary _ _
    | exact binary _ _

def Item.shift : Item → Option (Int × Int)
  | .push _ => some (1, 0)
  | .op o => o.shift

theorem Item.shift_plain {item : Item} {d a : Int} (h : item.shift = some (d, a)) :
    item.conditional = false := by
  cases item with
  | push data => rfl
  | op o => cases o <;> first | rfl | cases h

theorem Frame.acted_shifts {H : Bytes → Bytes} {item : Item} {d a : Int} {st st' : Stacks}
    (h : item.shift = some (d, a)) (hst : acted (shaEnv H) item st = some st') :
    (st'.main.length : Int) = st.main.length + d ∧
      (st'.alt.length : Int) = st.alt.length + a := by
  have he : Effect.Shifts (Machine.itemEffect (shaEnv H) item) d a := by
    cases item with
    | push data =>
      cases h
      exact ((Effect.Shifts.require _ _).bind fun _ => Effect.Shifts.push data).of_eq
        (by omega) (by omega)
    | op o =>
      by_cases ho : o = .sha256
      · subst ho
        cases h
        exact (Effect.Shifts.pop.bind fun x => Effect.Shifts.push (H x)).of_eq
          (by omega) (by omega)
      · have hi : Machine.itemEffect (shaEnv H) (.op o) = o.effect {} := if_neg ho
        rw [hi]
        exact Opcode.effect_shifts ho h
  unfold acted at hst
  split at hst
  · rename_i x st₁ hx
    cases hst
    exact he st x _ hx
  · cases hst

namespace Machine

/-- The script takes the machine to these stacks and leaves its branches as they are. -/
def Leaves (env : Env) (s : Script) (m : Machine) (st : Stacks) : Prop :=
  ∃ m', run env s m = .ok () m' ∧ m'.stack = st ∧ m'.branches = m.branches

def Aborts (env : Env) (s : Script) (m : Machine) : Prop := ∃ e m', run env s m = .error e m'

def Overflows (env : Env) (s : Script) (m : Machine) : Prop :=
  ∃ size m', run env s m = .error (.stackTooLarge size env.limits.stackItems) m'

/-- Nothing but the limit on the number of items keeps the script from taking the machine to these
stacks, and it does not with room for as many further items. -/
structure Attains (env : Env) (s : Script) (room : Int) (m : Machine) (st : Stacks) : Prop where
  leaves_or_overflows : m.Leaves env s st ∨ m.Overflows env s
  leaves : (m.stack.size : Int) + room ≤ env.limits.stackItems → m.Leaves env s st

/-- The script takes the machine to these stacks if there is room for as many further items; if not,
the limit on the number of items stops it. -/
structure Needs (env : Env) (s : Script) (room : Nat) (m : Machine) (st : Stacks) : Prop where
  leaves : (m.stack.size : Int) + room ≤ env.limits.stackItems → m.Leaves env s st
  overflows : env.limits.stackItems < (m.stack.size : Int) + room → m.Overflows env s

section

variable {env : Env} {h : Hasher} {H : Bytes → Bytes} {s : Script} {room : Nat} {m : Machine}
variable {st : Stacks}

theorem Needs.not_aborts (hn : m.Needs env s room st)
    (hroom : (m.stack.size : Int) + room ≤ env.limits.stackItems) : ¬ m.Aborts env s := by
  rintro ⟨e, n, hstop⟩
  obtain ⟨m', hrun, -⟩ := hn.leaves hroom
  rw [hstop] at hrun
  cases hrun

theorem Needs.of_unused (hs : .op h.opcode ∉ s) (hs' : .op .sha256 ∉ s)
    (hn : m.Needs (shaEnv H) s room st) : m.Needs ⟨h, {}⟩ s room st := by
  have hrun : run (shaEnv H) s = run ⟨h, {}⟩ s := run_of_unused hs' hs
  obtain ⟨hleaves, hover⟩ := hn
  unfold Leaves at hleaves
  unfold Overflows at hover
  rw [hrun] at hleaves hover
  exact ⟨hleaves, hover⟩

theorem Aborts.of_unused (hs : .op h.opcode ∉ s) (hs' : .op .sha256 ∉ s)
    (ha : m.Aborts (shaEnv H) s) : m.Aborts ⟨h, {}⟩ s := by
  have hrun : run (shaEnv H) s = run ⟨h, {}⟩ s := run_of_unused hs' hs
  unfold Aborts at ha
  rwa [hrun] at ha

end

theorem run_or_overflows {env : Env} {s : Script} {m : Machine} {g : Frame}
    (h : exec env s m.frame = some g) :
    (∃ m', run env s m = .ok () m' ∧ m'.frame = g) ∨ m.Overflows env s := by
  unfold Overflows
  induction s generalizing m with
  | nil =>
    cases h
    exact .inl ⟨m, rfl, rfl⟩
  | cons item s ih =>
    rw [exec_cons, Option.bind_eq_some_iff] at h
    obtain ⟨f, hf, hg⟩ := h
    simp only [run_cons]
    rcases step_or_overflow hf with ⟨m', hstep, rfl⟩ | ⟨-, m', hstep⟩
    · simp only [hstep]
      exact ih hg
    · simp only [hstep]
      exact .inr ⟨_, m', rfl⟩

/-- No machine gets past a point at which the execution has too many items. -/
theorem overflows_of_exec {env : Env} {s : Script} {m : Machine} {g : Frame}
    (hm : (m.stack.size : Int) ≤ env.limits.stackItems) (h : exec env s m.frame = some g)
    (hg : env.limits.stackItems < g.stack.size) (t : Script) : m.Overflows env (s ++ t) := by
  rcases run_or_overflows h with ⟨m', hrun, rfl⟩ | ⟨size, m', hrun⟩
  · have hle : (m'.frame.stack.size : Int) ≤ env.limits.stackItems := size_le_of_run hm hrun
    omega
  · exact ⟨size, m', by rw [run_append_eq, hrun]⟩

theorem aborts_of_exec {env : Env} {s : Script} {m : Machine} (h : exec env s m.frame = none) :
    m.Aborts env s := by
  cases hr : run env s m with
  | error e m' => exact ⟨e, m', hr⟩
  | ok a m' =>
    rw [exec_of_run hr] at h
    cases h

end Machine

/-- Every machine in this frame does what `exec` says: it ends in that frame, or stops. -/
def Followed (env : Env) (s : Script) (f : Frame) : Prop :=
  ∀ m : Machine, m.frame = f →
    match exec env s f with
    | some g => ∃ m', Machine.run env s m = .ok () m' ∧ m'.frame = g
    | none => ∃ e m', Machine.run env s m = .error e m'

namespace Followed

theorem nil (env : Env) (f : Frame) : Followed env [] f := fun m hm => ⟨m, rfl, hm⟩

theorem cons {env : Env} {item : Item} {s : Script} {f : Frame}
    (h : ∀ g, f.step env item = some g →
      (g.stack.size : Int) ≤ env.limits.stackItems ∧ Followed env s g) :
    Followed env (item :: s) f := by
  rintro m rfl
  rw [exec_cons, Machine.run_cons]
  cases hf : m.frame.step env item with
  | none =>
    obtain ⟨e, m', hm⟩ := Machine.step_of_frame_none hf
    exact ⟨e, m', by rw [hm]⟩
  | some g =>
    obtain ⟨hsize, hs⟩ := h g hf
    obtain ⟨m', hm, hg⟩ := Machine.step_of_frame hf hsize
    rw [hm]
    exact hs m' hg

theorem append {env : Env} {s t : Script} {f : Frame} (hs : Followed env s f)
    (ht : ∀ g, exec env s f = some g → Followed env t g) : Followed env (s ++ t) f := by
  intro m hm
  have hs := hs m hm
  rw [exec_append, Machine.run_append_eq]
  cases hf : exec env s f with
  | none =>
    rw [hf] at hs
    obtain ⟨e, m', hm'⟩ := hs
    exact ⟨e, m', by rw [hm']⟩
  | some g =>
    rw [hf] at hs
    obtain ⟨m', hm', hg⟩ := hs
    rw [hm']
    exact ht g hf m' hg

theorem leaves {env : Env} {s : Script} {m : Machine} {st : Stacks} (h : Followed env s m.frame)
    (he : exec env s m.frame = some ⟨st, m.branches⟩) : m.Leaves env s st := by
  have hrun := h m rfl
  rw [he] at hrun
  obtain ⟨m', hrun, hg⟩ := hrun
  exact ⟨m', hrun, congrArg Frame.stack hg, congrArg Frame.branches hg⟩

end Followed

/-- `s` shifts the sizes of the stacks by `d` and `a`, with at most `p` items more than at first. -/
inductive Shifts : Script → Int → Int → Int → Prop where
  | nil : Shifts [] 0 0 0
  | item {i : Item} {d a : Int} : i.shift = some (d, a) → Shifts [i] d a (max 0 (d + a))
  | append {s t : Script} {d a p e b q : Int} :
      Shifts s d a p → Shifts t e b q → Shifts (s ++ t) (d + e) (a + b) (max p (d + a + q))
  | either {o : Opcode} {s t : Script} {d a p q : Int} : o = .ifTrue ∨ o = .ifFalse →
      Shifts s d a p → Shifts t d a q →
      Shifts (.op o :: (s ++ .op .orElse :: (t ++ [.op .endIf]))) (d - 1) a
        (max 0 (max p q - 1))
  | only {o : Opcode} {s : Script} {p : Int} : o = .ifTrue ∨ o = .ifFalse →
      Shifts s 0 0 p → Shifts (.op o :: (s ++ [.op .endIf])) (-1) 0 (max 0 (p - 1))
  | roomier {s : Script} {d a p q : Int} : p ≤ q → Shifts s d a p → Shifts s d a q

theorem Frame.step_branch (env : Env) {o : Opcode} (ho : o = .ifTrue ∨ o = .ifFalse) :
    ∃ sense, ∀ f : Frame, f.step env (.op o) = f.openBranch sense := by
  rcases ho with rfl | rfl
  · exact ⟨true, fun _ => rfl⟩
  · exact ⟨false, fun _ => rfl⟩

theorem Frame.openBranch_active {sense : Bool} {m l : List Bytes} {bs : List Bool} {g : Frame}
    (hb : bs.all id = true) (h : (⟨⟨m, l⟩, bs⟩ : Frame).openBranch sense = some g) :
    ∃ c rest b, m = c :: rest ∧ g = ⟨⟨rest, l⟩, b :: bs⟩ := by
  unfold Frame.openBranch at h
  rw [if_pos (by exact hb)] at h
  cases m with
  | nil => cases h
  | cons c rest =>
    simp only at h
    split at h
    · cases h
      exact ⟨c, rest, _, rfl, rfl⟩
    · cases h

theorem Frame.openBranch_inside (sense : Bool) (st : Stacks) {bs : List Bool}
    (hb : bs.all id = true) :
    (⟨st, bs⟩ : Frame).openBranch sense = none ∧ (⟨st, []⟩ : Frame).openBranch sense = none ∨
      ∃ st' b, (⟨st, bs⟩ : Frame).openBranch sense = some ⟨st', b :: bs⟩ ∧
        (⟨st, []⟩ : Frame).openBranch sense = some ⟨st', [b]⟩ := by
  obtain ⟨m, l⟩ := st
  unfold Frame.openBranch
  rw [if_pos (by exact hb), if_pos (by rfl)]
  cases m with
  | nil => exact .inl ⟨rfl, rfl⟩
  | cons c rest =>
    by_cases hc : c = [] ∨ c = [1]
    · exact .inr ⟨_, _, if_pos hc, if_pos hc⟩
    · exact .inl ⟨if_neg hc, if_neg hc⟩

theorem Frame.openBranch_idle {sense : Bool} {st : Stacks} {bs : List Bool}
    (hb : bs.all id = false) :
    (⟨st, bs⟩ : Frame).openBranch sense = some ⟨st, false :: bs⟩ := by
  unfold Frame.openBranch Frame.active
  rw [if_neg (by rw [hb]; decide)]

namespace Shifts

variable {s t : Script} {d a p e b q : Int} {H : Bytes → Bytes}

theorem room_nonneg (h : Shifts s d a p) : 0 ≤ p ∧ d + a ≤ p := by
  induction h with
  | nil => omega
  | item hi => omega
  | append hs ht ihs iht => omega
  | either ho hs ht ihs iht => omega
  | only ho hs ih => omega
  | roomier hq hs ih => omega

/-- A branch that is not taken is passed over as a whole. -/
theorem exec_idle (h : Shifts s d a p) {st : Stacks} {bs : List Bool} (hb : bs.all id = false) :
    exec (shaEnv H) s ⟨st, bs⟩ = some ⟨st, bs⟩ := by
  induction h generalizing bs with
  | nil => rfl
  | item hi => rw [exec_skip (Item.shift_plain hi) hb]; rfl
  | append hs ht ihs iht => rw [exec_append, ihs hb, Option.bind_some, iht hb]
  | either ho hs ht ihs iht =>
    obtain ⟨sense, hstep⟩ := Frame.step_branch (shaEnv H) ho
    rw [exec_cons, hstep, Frame.openBranch_idle hb, Option.bind_some, exec_append,
      ihs (by simp), Option.bind_some, exec_orElse, exec_append, iht (by simpa using hb),
      Option.bind_some, exec_endIf]
    rfl
  | only ho hs ih =>
    obtain ⟨sense, hstep⟩ := Frame.step_branch (shaEnv H) ho
    rw [exec_cons, hstep, Frame.openBranch_idle hb, Option.bind_some, exec_append,
      ih (by simp), Option.bind_some, exec_endIf]
    rfl
  | roomier hq hs ih => exact ih hb

theorem sizes (h : Shifts s d a p) {st st' : Stacks} {bs bs' : List Bool}
    (hb : bs.all id = true) (hg : exec (shaEnv H) s ⟨st, bs⟩ = some ⟨st', bs'⟩) :
    (st'.main.length : Int) = st.main.length + d ∧
      (st'.alt.length : Int) = st.alt.length + a ∧ bs' = bs := by
  induction h generalizing st st' bs bs' with
  | nil =>
    cases hg
    simp
  | @item i d a hi =>
    rw [exec_cons, Frame.step_plain _ (Item.shift_plain hi), if_pos (by exact hb)] at hg
    cases hst : Frame.acted (shaEnv H) i st with
    | none => simp [hst] at hg
    | some st₁ =>
      simp only [hst, Option.map_some, Option.bind_some, exec_nil, Option.some.injEq,
        Frame.mk.injEq] at hg
      obtain ⟨rfl, rfl⟩ := hg
      have := Frame.acted_shifts hi hst
      exact ⟨this.1, this.2, rfl⟩
  | append hs ht ihs iht =>
    rw [exec_append, Option.bind_eq_some_iff] at hg
    obtain ⟨⟨st₁, bs₁⟩, h₁, h₂⟩ := hg
    obtain ⟨hm₁, hl₁, rfl⟩ := ihs hb h₁
    obtain ⟨hm₂, hl₂, rfl⟩ := iht hb h₂
    exact ⟨by omega, by omega, rfl⟩
  | either ho hs ht ihs iht =>
    obtain ⟨m, l⟩ := st
    obtain ⟨sense, hstep⟩ := Frame.step_branch (shaEnv H) ho
    rw [exec_cons, hstep, Option.bind_eq_some_iff] at hg
    obtain ⟨f, hf, hg⟩ := hg
    obtain ⟨c, rest, b, rfl, rfl⟩ := Frame.openBranch_active hb hf
    rw [exec_append, Option.bind_eq_some_iff] at hg
    obtain ⟨⟨st₁, bs₁⟩, h₁, h₂⟩ := hg
    cases b with
    | true =>
      obtain ⟨hm, hl, rfl⟩ := ihs (by simpa using hb) h₁
      rw [exec_orElse, exec_append, exec_idle ht (by simp), Option.bind_some, exec_endIf] at h₂
      cases h₂
      simp only [List.length_cons, and_true] at hm hl ⊢
      omega
    | false =>
      rw [exec_idle hs (by simp)] at h₁
      cases h₁
      rw [exec_orElse, exec_append, Option.bind_eq_some_iff] at h₂
      obtain ⟨⟨st₂, bs₂⟩, h₂, h₃⟩ := h₂
      obtain ⟨hm, hl, rfl⟩ := iht (by simpa using hb) h₂
      rw [exec_endIf] at h₃
      cases h₃
      simp only [List.length_cons, and_true] at hm hl ⊢
      omega
  | only ho hs ih =>
    obtain ⟨m, l⟩ := st
    obtain ⟨sense, hstep⟩ := Frame.step_branch (shaEnv H) ho
    rw [exec_cons, hstep, Option.bind_eq_some_iff] at hg
    obtain ⟨f, hf, hg⟩ := hg
    obtain ⟨c, rest, b, rfl, rfl⟩ := Frame.openBranch_active hb hf
    rw [exec_append, Option.bind_eq_some_iff] at hg
    obtain ⟨⟨st₁, bs₁⟩, h₁, h₂⟩ := hg
    cases b with
    | true =>
      obtain ⟨hm, hl, rfl⟩ := ih (by simpa using hb) h₁
      rw [exec_endIf] at h₂
      cases h₂
      simp only [List.length_cons, and_true] at hm hl ⊢
      omega
    | false =>
      rw [exec_idle hs (by simp)] at h₁
      cases h₁
      rw [exec_endIf] at h₂
      cases h₂
      simp only [List.length_cons, and_true]
      omega
  | roomier hq hs ih => exact ih hb hg

theorem size_eq (h : Shifts s d a p) {st st' : Stacks} {bs bs' : List Bool}
    (hb : bs.all id = true) (hg : exec (shaEnv H) s ⟨st, bs⟩ = some ⟨st', bs'⟩) :
    (st'.size : Int) = st.size + (d + a) ∧ bs' = bs := by
  obtain ⟨hm, hl, hbs⟩ := h.sizes hb hg
  unfold Stacks.size
  exact ⟨by omega, hbs⟩

theorem followed_idle (h : Shifts s d a p) {st : Stacks} {bs : List Bool}
    (hb : bs.all id = false) (hsize : (st.size : Int) ≤ 1000) :
    Followed (shaEnv H) s ⟨st, bs⟩ := by
  induction h generalizing bs with
  | nil => exact .nil _ _
  | @item i d a hi =>
    refine .cons fun g hg => ?_
    have he : exec (shaEnv H) [i] ⟨st, bs⟩ = some ⟨st, bs⟩ := exec_skip (Item.shift_plain hi) hb
    rw [exec_cons, hg] at he
    cases he
    exact ⟨hsize, .nil _ _⟩
  | append hs ht ihs iht =>
    refine (ihs hb).append fun g hg => ?_
    rw [exec_idle hs hb] at hg
    cases hg
    exact iht hb
  | either ho hs ht ihs iht =>
    refine .cons fun g hg => ?_
    obtain ⟨sense, hstep⟩ := Frame.step_branch (shaEnv H) ho
    rw [hstep, Frame.openBranch_idle hb] at hg
    cases hg
    refine ⟨hsize, (ihs (by simp)).append fun g hg => ?_⟩
    rw [exec_idle hs (by simp)] at hg
    cases hg
    refine .cons fun g hg => ?_
    cases hg
    refine ⟨hsize, (iht (by simpa using hb)).append fun g hg => ?_⟩
    rw [exec_idle ht (by simpa using hb)] at hg
    cases hg
    refine .cons fun g hg => ?_
    cases hg
    exact ⟨hsize, .nil _ _⟩
  | only ho hs ih =>
    refine .cons fun g hg => ?_
    obtain ⟨sense, hstep⟩ := Frame.step_branch (shaEnv H) ho
    rw [hstep, Frame.openBranch_idle hb] at hg
    cases hg
    refine ⟨hsize, (ih (by simp)).append fun g hg => ?_⟩
    rw [exec_idle hs (by simp)] at hg
    cases hg
    refine .cons fun g hg => ?_
    cases hg
    exact ⟨hsize, .nil _ _⟩
  | roomier hq hs ih => exact ih hb

theorem followed_first (hs : Shifts s d a p) (ht : Shifts t e b q) {st : Stacks} {bs : List Bool}
    (hb : bs.all id = true) (hf : Followed (shaEnv H) s ⟨st, true :: bs⟩)
    (hsize : (st.size : Int) + (d + a) ≤ 1000) :
    Followed (shaEnv H) (s ++ .op .orElse :: (t ++ [.op .endIf])) ⟨st, true :: bs⟩ := by
  refine hf.append fun ⟨st₁, bs₁⟩ h₁ => ?_
  obtain ⟨heq, rfl⟩ := hs.size_eq (by simpa using hb) h₁
  have hsize₁ : (st₁.size : Int) ≤ 1000 := by omega
  refine .cons fun g hg => ?_
  cases hg
  refine ⟨hsize₁, (ht.followed_idle (by simp) hsize₁).append fun g hg => ?_⟩
  rw [exec_idle ht (by simp)] at hg
  cases hg
  refine .cons fun g hg => ?_
  cases hg
  exact ⟨hsize₁, .nil _ _⟩

/-- With room enough a machine follows the execution. -/
theorem followed (h : Shifts s d a p) {st : Stacks} {bs : List Bool} (hb : bs.all id = true)
    (hroom : (st.size : Int) + p ≤ 1000) : Followed (shaEnv H) s ⟨st, bs⟩ := by
  induction h generalizing st bs with
  | nil => exact .nil _ _
  | @item i d a hi =>
    refine .cons fun ⟨st', bs'⟩ hg => ?_
    have he : exec (shaEnv H) [i] ⟨st, bs⟩ = some ⟨st', bs'⟩ := by rw [exec_cons, hg]; rfl
    have hs := (Shifts.item hi).size_eq hb he
    have hsize : (st'.size : Int) ≤ 1000 := by omega
    exact ⟨hsize, .nil _ _⟩
  | append hs ht ihs iht =>
    have hp := hs.room_nonneg
    refine (ihs hb (by omega)).append fun ⟨st', bs'⟩ hg => ?_
    obtain ⟨hsize, rfl⟩ := hs.size_eq hb hg
    exact iht hb (by omega)
  | either ho hs ht ihs iht =>
    have hp := hs.room_nonneg
    have hq := ht.room_nonneg
    obtain ⟨m, l⟩ := st
    refine .cons fun g hg => ?_
    obtain ⟨sense, hstep⟩ := Frame.step_branch (shaEnv H) ho
    rw [hstep] at hg
    obtain ⟨c, rest, b, rfl, rfl⟩ := Frame.openBranch_active hb hg
    have hsize : ((⟨rest, l⟩ : Stacks).size : Int) + 1 = (⟨c :: rest, l⟩ : Stacks).size := by
      simp only [Stacks.size, List.length_cons]
      omega
    have hrest : ((⟨rest, l⟩ : Stacks).size : Int) ≤ 1000 := by omega
    refine ⟨hrest, ?_⟩
    cases b with
    | true => exact hs.followed_first ht hb (ihs (by simpa using hb) (by omega)) (by omega)
    | false =>
      refine (hs.followed_idle (by simp) (by omega)).append fun g hg => ?_
      rw [exec_idle hs (by simp)] at hg
      cases hg
      refine .cons fun g hg => ?_
      obtain rfl : g = ⟨⟨rest, l⟩, true :: bs⟩ := (Option.some.inj hg).symm
      refine ⟨hrest, ?_⟩
      refine (iht (by simpa using hb) (by omega)).append fun ⟨st₁, bs₁⟩ h₁ => ?_
      obtain ⟨heq, rfl⟩ := ht.size_eq (by simpa using hb) h₁
      have hsize₁ : (st₁.size : Int) ≤ 1000 := by omega
      refine .cons fun g hg => ?_
      cases hg
      exact ⟨hsize₁, .nil _ _⟩
  | only ho hs ih =>
    have hp := hs.room_nonneg
    obtain ⟨m, l⟩ := st
    refine .cons fun g hg => ?_
    obtain ⟨sense, hstep⟩ := Frame.step_branch (shaEnv H) ho
    rw [hstep] at hg
    obtain ⟨c, rest, b, rfl, rfl⟩ := Frame.openBranch_active hb hg
    have hsize : ((⟨rest, l⟩ : Stacks).size : Int) + 1 = (⟨c :: rest, l⟩ : Stacks).size := by
      simp only [Stacks.size, List.length_cons]
      omega
    have hrest : ((⟨rest, l⟩ : Stacks).size : Int) ≤ 1000 := by omega
    refine ⟨hrest, ?_⟩
    cases b with
    | true =>
      refine (ih (by simpa using hb) (by omega)).append fun ⟨st₁, bs₁⟩ h₁ => ?_
      obtain ⟨heq, rfl⟩ := hs.size_eq (by simpa using hb) h₁
      have hsize₁ : (st₁.size : Int) ≤ 1000 := by omega
      refine .cons fun g hg => ?_
      cases hg
      exact ⟨hsize₁, .nil _ _⟩
    | false =>
      refine (hs.followed_idle (by simp) (by omega)).append fun g hg => ?_
      rw [exec_idle hs (by simp)] at hg
      cases hg
      refine .cons fun g hg => ?_
      cases hg
      exact ⟨hrest, .nil _ _⟩
  | roomier hq hs ih => exact ih hb (by omega)

theorem followed_ifTrue (hs : Shifts s d a p) (ht : Shifts t e b q) {m l : List Bytes}
    {bs : List Bool} (hb : bs.all id = true)
    (hroom : ((⟨m, l⟩ : Stacks).size : Int) + p ≤ 1000) :
    Followed (shaEnv H) (.op .ifTrue :: (s ++ .op .orElse :: (t ++ [.op .endIf])))
      ⟨⟨Number.ofBool true :: m, l⟩, bs⟩ := by
  -- where the condition holds, room for the first branch is enough
  have hp := hs.room_nonneg
  refine .cons fun g hg => ?_
  have hopen := exec_ifTrue (H := H) (s := []) (b := true) (m := m) (l := l) hb
  rw [exec_cons, hg] at hopen
  cases hopen
  have hsize : ((⟨m, l⟩ : Stacks).size : Int) ≤ 1000 := by omega
  exact ⟨hsize, hs.followed_first ht hb (hs.followed (by simpa using hb) hroom) (by omega)⟩

theorem exec_inside (h : Shifts s d a p) {st : Stacks} {bs : List Bool} (hb : bs.all id = true) :
    exec (shaEnv H) s ⟨st, bs⟩ = (exec (shaEnv H) s ⟨st, []⟩).map (⟨·.stack, bs⟩) := by
  induction h generalizing st bs with
  | nil => rfl
  | @item i d a hi =>
    rw [exec_cons, exec_cons, Frame.step_plain _ (Item.shift_plain hi),
      Frame.step_plain _ (Item.shift_plain hi), if_pos (by exact hb), if_pos (by rfl)]
    cases Frame.acted (shaEnv H) i st <;> rfl
  | append hs ht ihs iht =>
    rw [exec_append, exec_append, ihs hb]
    cases he : exec (shaEnv H) _ ⟨st, []⟩ with
    | none => rfl
    | some f =>
      obtain ⟨st₁, bs₁⟩ := f
      obtain ⟨-, -, rfl⟩ := hs.sizes rfl he
      exact iht hb
  | @either o s t d a p q ho hs ht ihs iht =>
    obtain ⟨sense, hstep⟩ := Frame.step_branch (shaEnv H) ho
    rw [exec_cons, exec_cons, hstep, hstep]
    rcases Frame.openBranch_inside sense st hb with ⟨h₁, h₂⟩ | ⟨st', b, h₁, h₂⟩
    · rw [h₁, h₂]
      rfl
    · rw [h₁, h₂, Option.bind_some, Option.bind_some, exec_append, exec_append]
      cases b with
      | true =>
        rw [@ihs st' (true :: bs) (by simpa using hb), @ihs st' [true] rfl]
        cases exec (shaEnv H) s ⟨st', []⟩ with
        | none => rfl
        | some f =>
          simp only [Option.map_some, Option.bind_some]
          rw [exec_orElse, exec_orElse, exec_append, exec_append, ht.exec_idle (by simp),
            ht.exec_idle (by simp), Option.bind_some, Option.bind_some, exec_endIf, exec_endIf]
          rfl
      | false =>
        rw [hs.exec_idle (by simp), hs.exec_idle (by simp), Option.bind_some, Option.bind_some,
          exec_orElse, exec_orElse, exec_append, exec_append, Bool.not_false]
        rw [@iht st' (true :: bs) (by simpa using hb), @iht st' [true] rfl]
        cases exec (shaEnv H) t ⟨st', []⟩ <;> rfl
  | @only o s p ho hs ih =>
    obtain ⟨sense, hstep⟩ := Frame.step_branch (shaEnv H) ho
    rw [exec_cons, exec_cons, hstep, hstep]
    rcases Frame.openBranch_inside sense st hb with ⟨h₁, h₂⟩ | ⟨st', b, h₁, h₂⟩
    · rw [h₁, h₂]
      rfl
    · rw [h₁, h₂, Option.bind_some, Option.bind_some, exec_append, exec_append]
      cases b with
      | true =>
        rw [@ih st' (true :: bs) (by simpa using hb), @ih st' [true] rfl]
        cases exec (shaEnv H) s ⟨st', []⟩ <;> rfl
      | false =>
        rw [hs.exec_idle (by simp), hs.exec_idle (by simp)]
        rfl
  | roomier hq hs ih => exact ih hb

theorem exec_second (hs : Shifts s d a p) (ht : Shifts t e b q) {m l : List Bytes} {bs : List Bool}
    (hb : bs.all id = true) :
    exec (shaEnv H) (.op .ifTrue :: (s ++ .op .orElse :: t)) ⟨⟨Number.ofBool false :: m, l⟩, bs⟩ =
      (exec (shaEnv H) t ⟨⟨m, l⟩, []⟩).map (⟨·.stack, true :: bs⟩) := by
  rw [exec_ifTrue hb, exec_append, hs.exec_idle rfl, Option.bind_some, exec_orElse]
  exact ht.exec_inside (by simpa using hb)

section Conditionals

variable {m l : List Bytes} {c : Bool}

theorem exec_either (hs : Shifts s d a p) (ht : Shifts t e b q) :
    exec (shaEnv H) (.op .ifTrue :: (s ++ .op .orElse :: (t ++ [.op .endIf])))
        ⟨⟨Number.ofBool c :: m, l⟩, []⟩ =
      if c then exec (shaEnv H) s ⟨⟨m, l⟩, []⟩ else exec (shaEnv H) t ⟨⟨m, l⟩, []⟩ := by
  rw [exec_ifTrue rfl, exec_append]
  cases c with
  | true =>
    rw [if_pos rfl, hs.exec_inside rfl]
    cases he : exec (shaEnv H) s ⟨⟨m, l⟩, []⟩ with
    | none => rfl
    | some f =>
      obtain ⟨st, bs⟩ := f
      obtain ⟨-, -, rfl⟩ := hs.sizes rfl he
      rw [Option.map_some, Option.bind_some, exec_orElse, exec_append, ht.exec_idle rfl]
      rfl
  | false =>
    rw [if_neg (by decide), hs.exec_idle rfl, Option.bind_some, exec_orElse, exec_append,
      ht.exec_inside rfl]
    cases he : exec (shaEnv H) t ⟨⟨m, l⟩, []⟩ with
    | none => rfl
    | some f =>
      obtain ⟨st, bs⟩ := f
      obtain ⟨-, -, rfl⟩ := ht.sizes rfl he
      rfl

theorem exec_block (hs : Shifts s d a p) :
    exec (shaEnv H) (s ++ [.op .endIf]) ⟨⟨m, l⟩, [c]⟩ =
      if c then exec (shaEnv H) s ⟨⟨m, l⟩, []⟩ else some ⟨⟨m, l⟩, []⟩ := by
  rw [exec_append]
  cases c with
  | true =>
    rw [if_pos rfl, hs.exec_inside rfl]
    cases he : exec (shaEnv H) s ⟨⟨m, l⟩, []⟩ with
    | none => rfl
    | some f =>
      obtain ⟨st, bs⟩ := f
      obtain ⟨-, -, rfl⟩ := hs.sizes rfl he
      rfl
  | false =>
    rw [if_neg (by decide), hs.exec_idle rfl]
    rfl

theorem exec_only (hs : Shifts s d a p) :
    exec (shaEnv H) (.op .ifTrue :: (s ++ [.op .endIf])) ⟨⟨Number.ofBool c :: m, l⟩, []⟩ =
      if c then exec (shaEnv H) s ⟨⟨m, l⟩, []⟩ else some ⟨⟨m, l⟩, []⟩ := by
  rw [exec_ifTrue rfl]
  exact hs.exec_block

theorem exec_unless (hs : Shifts s d a p) :
    exec (shaEnv H) (.op .ifFalse :: (s ++ [.op .endIf])) ⟨⟨Number.ofBool c :: m, l⟩, []⟩ =
      if c then some ⟨⟨m, l⟩, []⟩ else exec (shaEnv H) s ⟨⟨m, l⟩, []⟩ := by
  rw [exec_ifFalse rfl, hs.exec_block]
  cases c <;> rfl

end Conditionals

/-- Every machine does what `exec` says as far as the limit on the number of items lets it. -/
theorem attains_or_aborts (h : Shifts s d a p) {m : Machine} (ha : m.active = true) :
    match exec (shaEnv H) s ⟨m.stack, []⟩ with
    | some g => m.Attains (shaEnv H) s p g.stack
    | none => m.Aborts (shaEnv H) s := by
  have hinside : exec (shaEnv H) s m.frame = _ := h.exec_inside ha
  cases hx : exec (shaEnv H) s ⟨m.stack, []⟩ with
  | none =>
    rw [hx] at hinside
    exact Machine.aborts_of_exec hinside
  | some g =>
    rw [hx] at hinside
    refine ⟨?_, fun hroom => ?_⟩
    · rcases Machine.run_or_overflows hinside with ⟨m', hrun, hg⟩ | hover
      · exact .inl ⟨m', hrun, congrArg Frame.stack hg, congrArg Frame.branches hg⟩
      · exact .inr hover
    · exact (h.followed ha hroom).leaves hinside

theorem leaves (h : Shifts s d a p) {m : Machine} (ha : m.active = true)
    (hroom : (m.stack.size : Int) + p ≤ 1000) {st : Stacks}
    (he : exec (shaEnv H) s ⟨m.stack, []⟩ = some ⟨st, []⟩) :
    m.Leaves (shaEnv H) s st := by
  have hrun := h.attains_or_aborts (H := H) ha
  rw [he] at hrun
  exact hrun.leaves hroom

theorem aborts (h : Shifts s d a p) {m : Machine} (ha : m.active = true)
    (hroom : (m.stack.size : Int) + p ≤ 1000) (he : exec (shaEnv H) s ⟨m.stack, []⟩ = none) :
    m.Aborts (shaEnv H) s := by
  have hf := h.followed (H := H) ha hroom m rfl
  rw [h.exec_inside ha, he] at hf
  exact hf

/-- Where the execution goes through, a machine without room for what an initial part of the script
adds is stopped by the limit. -/
theorem overflows (h : Shifts s d a p) (ht : s <+: t) {m : Machine} (ha : m.active = true)
    (hm : m.stack.size ≤ 1000) (hfull : 1000 < (m.stack.size : Int) + (d + a)) {g : Frame}
    (he : exec (shaEnv H) t ⟨m.stack, []⟩ = some g) : m.Overflows (shaEnv H) t := by
  obtain ⟨u, rfl⟩ := ht
  rw [exec_append, Option.bind_eq_some_iff] at he
  obtain ⟨f, hf, -⟩ := he
  obtain ⟨hsize, -⟩ := h.size_eq rfl hf
  have hinside : exec (shaEnv H) s m.frame = some ⟨f.stack, m.branches⟩ := by
    rw [Machine.frame, h.exec_inside ha, hf]
    rfl
  have hlimit : (shaEnv H).limits.stackItems = 1000 := rfl
  exact Machine.overflows_of_exec (by omega) hinside (by rw [hlimit, hsize]; exact hfull) u

theorem of_eq {d' a' p' : Int} (h : Shifts s d a p) (hd : d = d') (ha : a = a') (hp : p ≤ p') :
    Shifts s d' a' p' := by
  subst hd ha
  exact .roomier hp h

/-- Repeating a script that grows the stacks by at most `k`: the last time needs the most room. -/
theorem times_succ {k : Int} (n : Nat) (h : Shifts s d a p) (hk : d + a ≤ k) (h0 : 0 ≤ k) :
    Shifts (Script.times (n + 1) s) ((n + 1 : Nat) * d) ((n + 1 : Nat) * a) (p + n * k) := by
  have hp := h.room_nonneg
  induction n with
  | zero => exact (h.append .nil).of_eq (by omega) (by omega) (by omega)
  | succ n ih =>
    have hnk : 0 ≤ (n : Int) * k := Int.mul_nonneg (by omega) h0
    refine (h.append ih).of_eq ?_ ?_ ?_
    · rw [Int.natCast_succ (n + 1), Int.add_mul]
      omega
    · rw [Int.natCast_succ (n + 1), Int.add_mul]
      omega
    · rw [Int.natCast_succ n, Int.add_mul]
      omega

theorem times {k : Int} (n : Nat) (h : Shifts s d a p) (hk : d + a ≤ k) (h0 : 0 ≤ k) :
    Shifts (Script.times n s) (n * d) (n * a) (p + n * k) := by
  have hp := h.room_nonneg
  cases n with
  | zero => exact nil.of_eq (by omega) (by omega) (by omega)
  | succ n =>
    refine (h.times_succ n hk h0).of_eq rfl rfl ?_
    rw [Int.natCast_succ, Int.add_mul]
    omega

end Shifts

def Script.lineShift : Script → Option (Int × Int × Int)
  | [] => some (0, 0, 0)
  | i :: s =>
    match i.shift, lineShift s with
    | some (d, a), some (e, b, q) => some (d + e, a + b, max (max 0 (d + a)) (d + a + q))
    | _, _ => none

theorem Shifts.line {s : Script} {d a p : Int} (h : s.lineShift = some (d, a, p)) :
    Shifts s d a p := by
  induction s generalizing d a p with
  | nil =>
    cases h
    exact .nil
  | cons i s ih =>
    unfold Script.lineShift at h
    split at h
    · rename_i hi hs
      cases h
      exact (Shifts.item hi).append (ih hs)
    · cases h

theorem Script.pushes_shifts (xs : List Bytes) :
    Shifts (Script.pushes xs) xs.length 0 xs.length := by
  induction xs with
  | nil => exact .nil
  | cons x xs ih =>
    have hpush := (Shifts.line (s := Script.bytes x) rfl).append ih
    exact hpush.of_eq (by rw [List.length_cons]; omega) rfl (by rw [List.length_cons]; omega)

theorem Script.fetch_shifts : Shifts Script.fetch 0 0 1 := .line rfl

theorem Script.times_fetch_shifts (n : Nat) : Shifts (Script.times n Script.fetch) 0 0 1 :=
  (fetch_shifts.times n (k := 0) (by decide) (by decide)).of_eq (by omega) (by omega) (by omega)

end HintScript
