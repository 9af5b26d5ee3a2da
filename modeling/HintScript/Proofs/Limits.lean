import HintScript.Proofs.Peak

/-! The default limits: a machine that has not stopped holds at most 1000 items, none of which is
longer than 520 bytes; one that stops holds at most three more, none longer either.

Effects are judged by `Effect.Keeps`, one rule for each way to put them together. That items stay
short is what one step preserves; that there are not too many of them is checked by each step,
after the item has acted.
-/

set_option autoImplicit false

namespace HintScript

open Number

structure Stacks.Fits (st : Stacks) : Prop where
  main : ∀ x ∈ st.main, x.length ≤ 520
  alt : ∀ x ∈ st.alt, x.length ≤ 520

structure Stacks.Within (st : Stacks) : Prop extends st.Fits where
  items : st.size ≤ 1000

/-- A result that leaves no item too long and at most `n` items, and a value as `post` says where
there is one. -/
inductive Effect.Bounded {α : Type} (n : Nat) (post : α → Prop) :
    EStateM.Result Fault Stacks α → Prop where
  | ok {x : α} {st : Stacks} (fits : st.Fits) (items : st.size ≤ n) (value : post x) :
      Bounded n post (.ok x st)
  | error {fault : Fault} {st : Stacks} (fits : st.Fits) (items : st.size ≤ n) :
      Bounded n post (.error fault st)

theorem Effect.Bounded.mono {α : Type} {n n' : Nat} {post post' : α → Prop}
    {r : EStateM.Result Fault Stacks α} (h : Bounded n post r) (hn : n ≤ n')
    (hpost : ∀ x, post x → post' x) : Bounded n' post' r := by
  cases h with
  | ok fits items value => exact .ok fits (Nat.le_trans items hn) (hpost _ value)
  | error fits items => exact .error fits (Nat.le_trans items hn)

/-- An effect leaves no item too long where it found none, and at most `n` items more, whether it
ends or stops. -/
def Effect.Keeps {α : Type} (e : Effect α) (n : Nat) (post : α → Prop) : Prop :=
  ∀ st, st.Fits → Effect.Bounded (st.size + n) post (e st)

namespace Effect.Keeps

variable {α β : Type} {e : Effect α} {n n' : Nat} {post : α → Prop} {post' : β → Prop}

theorem bind {k : α → Effect β} (he : Effect.Keeps e n post)
    (hk : ∀ x, post x → Effect.Keeps (k x) n' post') : Effect.Keeps (e >>= k) (n + n') post' := by
  intro st hst
  have hfirst := he st hst
  change Effect.Bounded _ _ (EStateM.bind e k st)
  rw [EStateM.bind]
  generalize e st = r at hfirst
  cases hfirst with
  | error fits items => exact .error fits (by omega)
  | ok fits items value => exact (hk _ value _ fits).mono (by omega) fun _ hy => hy

theorem mono {post₂ : α → Prop} (he : Effect.Keeps e n post) (hn : n ≤ n')
    (hpost : ∀ x, post x → post₂ x) : Effect.Keeps e n' post₂ :=
  fun st hst => (he st hst).mono (Nat.add_le_add_left hn _) hpost

theorem relax (hn : n ≤ n') (he : Effect.Keeps e n fun _ => True) :
    Effect.Keeps e n' fun _ => True :=
  he.mono hn fun _ h => h

theorem pure {x : α} (hx : post x) : Effect.Keeps (Pure.pure x) 0 post :=
  fun _ hst => .ok hst (Nat.le_refl _) hx

theorem throw (f : Fault) : Effect.Keeps (throw f : Effect α) 0 post :=
  fun _ hst => .error hst (Nat.le_refl _)

theorem push {x : Bytes} (hx : x.length ≤ 520) :
    Effect.Keeps (Effect.push x) 1 fun _ => True := by
  intro st hst
  refine .ok ⟨List.forall_mem_cons.mpr ⟨hx, hst.main⟩, hst.alt⟩ ?_ trivial
  simp only [Stacks.size, List.length_cons]
  omega

theorem pop : Effect.Keeps Effect.pop 0 fun x => x.length ≤ 520 := by
  intro st hst
  obtain ⟨main, alt⟩ := st
  cases main with
  | nil => exact .error hst (Nat.le_refl _)
  | cons y rest =>
    obtain ⟨hy, hrest⟩ := List.forall_mem_cons.mp hst.main
    refine .ok ⟨hrest, hst.alt⟩ ?_ hy
    simp only [Stacks.size, List.length_cons]
    omega

theorem peek (i : Nat) : Effect.Keeps (Effect.peek i) 0 fun x => x.length ≤ 520 := by
  intro st hst
  unfold Effect.peek
  split
  · exact .error hst (Nat.le_refl _)
  · rename_i y hy
    exact .ok hst (Nat.le_refl _) (hst.main _ (List.mem_of_getElem? hy))

theorem copy (i : Nat) : Effect.Keeps (Effect.copy i) 1 fun _ => True :=
  ((peek i).bind fun _ hx => push hx).mono (by decide) fun _ _ => trivial

theorem move (i : Nat) : Effect.Keeps (Effect.move i) 0 fun _ => True := by
  intro st hst
  unfold Effect.move
  split
  · exact .error hst (Nat.le_refl _)
  · rename_i y hy
    obtain ⟨hi, -⟩ := List.getElem?_eq_some_iff.mp hy
    have hrest (z : Bytes) (hz : z ∈ st.main.eraseIdx i) : z.length ≤ 520 :=
      hst.main z (List.mem_of_mem_eraseIdx hz)
    have htop := hst.main y (List.mem_of_getElem? hy)
    refine .ok ⟨List.forall_mem_cons.mpr ⟨htop, hrest⟩, hst.alt⟩ ?_ trivial
    simp only [Stacks.size, List.length_cons, List.length_eraseIdx_of_lt hi]
    omega

theorem toAlt : Effect.Keeps Effect.toAlt 0 fun _ => True := by
  intro st hst
  obtain ⟨main, alt⟩ := st
  cases main with
  | nil => exact .error hst (Nat.le_refl _)
  | cons y rest =>
    obtain ⟨hy, hrest⟩ := List.forall_mem_cons.mp hst.main
    refine .ok ⟨hrest, List.forall_mem_cons.mpr ⟨hy, hst.alt⟩⟩ ?_ trivial
    simp only [Stacks.size, List.length_cons]
    omega

theorem fromAlt : Effect.Keeps Effect.fromAlt 0 fun _ => True := by
  intro st hst
  obtain ⟨main, alt⟩ := st
  cases alt with
  | nil => exact .error hst (Nat.le_refl _)
  | cons y rest =>
    obtain ⟨hy, hrest⟩ := List.forall_mem_cons.mp hst.alt
    refine .ok ⟨List.forall_mem_cons.mpr ⟨hy, hst.main⟩, hrest⟩ ?_ trivial
    simp only [Stacks.size, List.length_cons]
    omega

theorem require (condition : Bool) (fault : Fault) :
    Effect.Keeps (Effect.require condition fault) 0 fun _ => condition = true := by
  unfold Effect.require
  split
  · exact pure ‹_›
  · exact throw fault

theorem check (condition : Bool) (fault : Fault) :
    Effect.Keeps (Effect.require condition fault) 0 fun _ => True :=
  (require condition fault).mono (Nat.le_refl 0) fun _ _ => trivial

end Effect.Keeps

theorem Number.length_encode_le_five {v : Int} (hv : v.natAbs < 2 ^ 39) :
    (encode v).length ≤ 5 := by
  rw [length_encode]
  exact (width_le_iff v 4).mpr hv

theorem Number.natAbs_flag_lt (b : Bool) : (flag b).natAbs < 2 ^ 39 := by
  cases b <;> decide

theorem Number.length_ofBool_le (b : Bool) : (ofBool b).length ≤ 1 := by
  cases b <;> decide

namespace Effect.Keeps

theorem pushNum {v : Int} (hv : v.natAbs < 2 ^ 39) :
    Effect.Keeps (Effect.pushNum v) 1 fun _ => True :=
  push (Nat.le_trans (length_encode_le_five hv) (by decide))

theorem pushFlag (b : Bool) : Effect.Keeps (Effect.push (ofBool b)) 1 fun _ => True :=
  push (Nat.le_trans (length_ofBool_le b) (by decide))

theorem popNum : Effect.Keeps (Effect.popNum {}) 0 fun v => v.natAbs < 2 ^ 31 := by
  change Effect.Keeps _ (0 + 0) _
  refine pop.bind fun x _ => ?_
  cases hd : decode x ({} : Limits).numSize with
  | error cause => exact throw _
  | ok v => exact pure (natAbs_lt_of_decode hd)

theorem unary {f : Int → Int} (hf : ∀ v, v.natAbs < 2 ^ 31 → (f v).natAbs < 2 ^ 39) :
    Effect.Keeps (Effect.unary {} f) 1 fun _ => True :=
  popNum.bind fun v hv => pushNum (hf v hv)

theorem binary {f : Int → Int → Int}
    (hf : ∀ v w, v.natAbs < 2 ^ 31 → w.natAbs < 2 ^ 31 → (f v w).natAbs < 2 ^ 39) :
    Effect.Keeps (Effect.binary {} f) 1 fun _ => True :=
  popNum.bind fun w hw => popNum.bind fun v hv => pushNum (hf v w hv hw)

theorem popIndex (code : Opcode) : Effect.Keeps (Effect.popIndex {} code) 0 fun _ => True :=
  popNum.bind fun _ _ => (require _ _).bind fun _ _ => pure trivial

end Effect.Keeps

def Opcode.unary? : Opcode → Option (Int → Int)
  | .add1 => some (· + 1)
  | .sub1 => some (· - 1)
  | .negate => some (- ·)
  | .abs => some fun a => a.natAbs
  | .not => some fun a => flag (a = 0)
  | .notZero => some fun a => flag (a ≠ 0)
  | _ => none

def Opcode.binary? : Opcode → Option (Int → Int → Int)
  | .add => some (· + ·)
  | .sub => some (· - ·)
  | .boolAnd => some fun a b => flag (a ≠ 0 ∧ b ≠ 0)
  | .boolOr => some fun a b => flag (a ≠ 0 ∨ b ≠ 0)
  | .numEqual => some fun a b => flag (a = b)
  | .numNotEqual => some fun a b => flag (a ≠ b)
  | .less => some fun a b => flag (a < b)
  | .greater => some fun a b => flag (a > b)
  | .lessEq => some fun a b => flag (a ≤ b)
  | .greaterEq => some fun a b => flag (a ≥ b)
  | .min => some fun a b => if b < a then b else a
  | .max => some fun a b => if a < b then b else a
  | _ => none

namespace Opcode

variable {o : Opcode} {f : Int → Int} {g : Int → Int → Int}

theorem effect_unary (limits : Limits) (h : o.unary? = some f) :
    o.effect limits = Effect.unary limits f := by
  cases o <;> cases h <;> rfl

theorem effect_binary (limits : Limits) (h : o.binary? = some g) :
    o.effect limits = Effect.binary limits g := by
  cases o <;> cases h <;> rfl

theorem natAbs_unary_lt (h : o.unary? = some f) (v : Int) (hv : v.natAbs < 2 ^ 31) :
    (f v).natAbs < 2 ^ 39 := by
  cases o <;> cases h <;> dsimp only
  case not => exact natAbs_flag_lt _
  case notZero => exact natAbs_flag_lt _
  all_goals omega

theorem natAbs_binary_lt (h : o.binary? = some g) (v w : Int) (hv : v.natAbs < 2 ^ 31)
    (hw : w.natAbs < 2 ^ 31) : (g v w).natAbs < 2 ^ 39 := by
  cases o <;> cases h <;> dsimp only
  case add => omega
  case sub => omega
  case min => split <;> omega
  case max => split <;> omega
  all_goals exact natAbs_flag_lt _

theorem keeps_unary (h : o.unary? = some f) : Effect.Keeps (o.effect {}) 1 fun _ => True := by
  rw [effect_unary {} h]
  exact Effect.Keeps.unary (natAbs_unary_lt h)

theorem keeps_binary (h : o.binary? = some g) : Effect.Keeps (o.effect {}) 1 fun _ => True := by
  rw [effect_binary {} h]
  exact Effect.Keeps.binary (natAbs_binary_lt h)

end Opcode

open Effect.Keeps in
/-- What an opcode pushes is an item it found, a short number, a flag, or joined within the
limit; and it pushes at most three. -/
theorem Opcode.effect_keeps {o : Opcode} (ho : o ≠ .depth) :
    Effect.Keeps (o.effect {}) 3 fun _ => True := by
  cases o <;> try contradiction
  case nop => exact relax (by decide) (pure trivial)
  case verify => exact relax (by decide) (pop.bind fun x _ => check _ _)
  case abort => exact relax (by decide) (throw _)
  case toAlt => exact relax (by decide) Effect.Keeps.toAlt
  case fromAlt => exact relax (by decide) Effect.Keeps.fromAlt
  case drop2 => exact relax (by decide) (pop.bind fun _ _ => pop.bind fun _ _ => pure trivial)
  case dup2 => exact relax (by decide) ((copy 1).bind fun _ _ => copy 1)
  case dup3 =>
    exact relax (by decide) ((copy 2).bind fun _ _ => (copy 2).bind fun _ _ => copy 2)
  case over2 => exact relax (by decide) ((copy 3).bind fun _ _ => copy 3)
  case rot2 => exact relax (by decide) ((move 5).bind fun _ _ => move 5)
  case swap2 => exact relax (by decide) ((move 3).bind fun _ _ => move 3)
  case ifDup =>
    have hcopy (x : Bytes) : Effect.Keeps (if isTrue x then Effect.copy 0 else Pure.pure ()) 1
        fun _ => True := by
      split
      · exact copy 0
      · exact relax (by decide) (pure trivial)
    exact relax (by decide) ((peek 0).bind fun x _ => hcopy x)
  case drop => exact relax (by decide) (pop.bind fun _ _ => pure trivial)
  case dup => exact relax (by decide) (copy 0)
  case nip => exact relax (by decide) (pop.bind fun _ hx => pop.bind fun _ _ => push hx)
  case over1 => exact relax (by decide) (copy 1)
  case pick => exact relax (by decide) ((popIndex _).bind fun n _ => copy n)
  case roll => exact relax (by decide) ((popIndex _).bind fun n _ => move n)
  case rot => exact relax (by decide) (move 2)
  case swap => exact relax (by decide) (move 1)
  case tuck =>
    exact relax (by decide) (pop.bind fun _ hx => pop.bind fun _ hy => (push hx).bind fun _ _ =>
      (push hy).bind fun _ _ => push hx)
  case cat =>
    have hjoin (top second : Bytes)
        (hroom : decide ((second.length : Int) + top.length ≤ ({} : Limits).elementSize) = true) :
        (second ++ top).length ≤ 520 := by
      have hle : (second.length : Int) + top.length ≤ 520 := of_decide_eq_true hroom
      rw [List.length_append]
      omega
    exact relax (by decide) (pop.bind fun top _ => pop.bind fun second _ =>
      (require _ _).bind fun _ hroom => push (hjoin top second hroom))
  case size => exact relax (by decide) ((peek 0).bind fun x hx => pushNum (by omega))
  case equal => exact relax (by decide) (pop.bind fun _ _ => pop.bind fun _ _ => pushFlag _)
  case equalVerify =>
    exact relax (by decide) (pop.bind fun _ _ => pop.bind fun _ _ => check _ _)
  case numEqualVerify =>
    exact relax (by decide) (popNum.bind fun _ _ => popNum.bind fun _ _ => check _ _)
  case within =>
    exact relax (by decide) (popNum.bind fun _ _ => popNum.bind fun _ _ => popNum.bind fun _ _ =>
      pushFlag _)
  all_goals first
    | exact relax (by decide) (keeps_unary rfl)
    | exact relax (by decide) (keeps_binary rfl)
    | exact relax (by decide) (throw _)

theorem Opcode.depth_bounded {st : Stacks} (hst : st.Within) :
    Effect.Bounded (st.size + 3) (fun _ => True) (Opcode.depth.effect {} st) := by
  have hitems := hst.items
  unfold Stacks.size at hitems
  have hpush : Effect.Keeps (Effect.pushNum st.main.length) 3 fun _ => True :=
    .relax (by decide) (.pushNum (by omega))
  exact hpush st hst.toFits

/-! ### Results of computations -/

def Opcode.operands? : Opcode → Option Nat
  | .depth | .size => some 0
  | .add1 | .sub1 | .negate | .abs | .not | .notZero => some 1
  | .equal | .add | .sub | .boolAnd | .boolOr | .numEqual | .numNotEqual => some 2
  | .less | .greater | .lessEq | .greaterEq | .min | .max => some 2
  | .within => some 3
  | _ => none

def Effect.Takes {α : Type} (e : Effect α) (k : Nat) : Prop :=
  ∀ st x st', e st = .ok x st' → st' = ⟨st.main.drop k, st.alt⟩

namespace Effect.Takes

theorem pop : Effect.Takes Effect.pop 1 := by
  intro st x st' h
  obtain ⟨main, alt⟩ := st
  cases main <;> cases h
  rfl

theorem peek (i : Nat) : Effect.Takes (Effect.peek i) 0 := by
  intro st x st' h
  unfold Effect.peek at h
  split at h <;> cases h
  rfl

theorem popNum (limits : Limits) : Effect.Takes (Effect.popNum limits) 1 := by
  intro st v st' h
  simp only [Effect.popNum, bind, EStateM.bind] at h
  cases hpop : Effect.pop st with
  | error fault st₁ => simp [hpop] at h
  | ok x st₁ =>
    simp only [hpop] at h
    cases hd : decode x limits.numSize with
    | error cause =>
      simp only [hd] at h
      cases h
    | ok w =>
      simp only [hd] at h
      cases h
      exact pop st x _ hpop

end Effect.Takes

/-- An effect that ends has put one item of at most five bytes in the place of the `k` on top. -/
def Effect.Yields (e : Effect Unit) (k : Nat) : Prop :=
  ∀ st st', st.Fits → e st = .ok () st' →
    ∃ x, x.length ≤ 5 ∧ st' = ⟨x :: st.main.drop k, st.alt⟩

namespace Effect.Yields

variable {α : Type} {e : Effect α} {n j k : Nat} {post : α → Prop}

theorem bind {rest : α → Effect Unit} (ht : Effect.Takes e j) (hk : Effect.Keeps e n post)
    (hrest : ∀ x, post x → Effect.Yields (rest x) k) : Effect.Yields (e >>= rest) (j + k) := by
  intro st st' hst h
  simp only [Bind.bind, EStateM.bind] at h
  have hkept := hk st hst
  cases he : e st with
  | error fault st₁ => simp [he] at h
  | ok x st₁ =>
    simp only [he] at h
    rw [he] at hkept
    cases hkept with
    | ok fits _ value =>
      obtain ⟨y, hy, hst'⟩ := hrest x value st₁ st' fits h
      rw [ht st x st₁ he, List.drop_drop] at hst'
      exact ⟨y, hy, hst'⟩

theorem push {x : Bytes} (hx : x.length ≤ 5) : Effect.Yields (Effect.push x) 0 := by
  intro st st' _ h
  cases h
  exact ⟨x, hx, rfl⟩

theorem pushNum {v : Int} (hv : v.natAbs < 2 ^ 39) : Effect.Yields (Effect.pushNum v) 0 :=
  push (length_encode_le_five hv)

theorem pushFlag (b : Bool) : Effect.Yields (Effect.push (ofBool b)) 0 :=
  push (Nat.le_trans (length_ofBool_le b) (by decide))

theorem popNum {rest : Int → Effect Unit}
    (hrest : ∀ v, v.natAbs < 2 ^ 31 → Effect.Yields (rest v) k) :
    Effect.Yields (Effect.popNum {} >>= rest) (1 + k) :=
  bind (Effect.Takes.popNum {}) .popNum hrest

theorem pop {rest : Bytes → Effect Unit} (hrest : ∀ x, Effect.Yields (rest x) k) :
    Effect.Yields (Effect.pop >>= rest) (1 + k) :=
  bind .pop .pop fun x _ => hrest x

theorem unary {o : Opcode} {f : Int → Int} (h : o.unary? = some f) :
    Effect.Yields (o.effect {}) 1 := by
  rw [Opcode.effect_unary {} h]
  exact popNum fun v hv => pushNum (Opcode.natAbs_unary_lt h v hv)

theorem binary {o : Opcode} {g : Int → Int → Int} (h : o.binary? = some g) :
    Effect.Yields (o.effect {}) 2 := by
  rw [Opcode.effect_binary {} h]
  exact popNum fun w hw => popNum fun v hv => pushNum (Opcode.natAbs_binary_lt h v w hv hw)

end Effect.Yields

open Effect.Yields in
theorem Opcode.effect_yields {o : Opcode} {k : Nat} (ho : o ≠ .depth) (h : o.operands? = some k) :
    Effect.Yields (o.effect {}) k := by
  cases o <;> cases h <;> try contradiction
  case size =>
    exact bind (.peek 0) (.peek 0) fun x hx => pushNum (by omega)
  case equal => exact pop fun _ => pop fun _ => pushFlag _
  case within => exact popNum fun _ _ => popNum fun _ _ => popNum fun _ _ => pushFlag _
  all_goals first
    | exact unary rfl
    | exact binary rfl

theorem Opcode.depth_yields {st st' : Stacks} (hst : st.Within)
    (h : Opcode.depth.effect {} st = .ok () st') :
    ∃ x, x.length ≤ 5 ∧ st' = ⟨x :: st.main.drop 0, st.alt⟩ := by
  have hitems := hst.items
  unfold Stacks.size at hitems
  have hpush : Effect.Yields (Effect.pushNum st.main.length) 0 := .pushNum (by omega)
  exact hpush st st' hst.toFits h

/-! ### Steps and runs -/

/-- The machine that is left, whether it ended or stopped. -/
def Machine.left {α : Type} : EStateM.Result Fault Machine α → Machine
  | .ok _ m => m
  | .error _ m => m

theorem execute_machine (env : Env) (s : Script) :
    (execute env s).machine = Machine.left (Machine.run env s {}) := by
  unfold execute
  cases Machine.run env s {} <;> rfl

namespace Machine

variable {h : Hasher} {item : Item} {s : Script} {m m' : Machine} {st : Stacks}

theorem itemEffect_bounded (hw : h.Wide) (hst : st.Within) :
    Effect.Bounded (st.size + 3) (fun _ => True) (itemEffect ⟨h, {}⟩ item st) := by
  cases item with
  | push data =>
    have hkeeps : Effect.Keeps (itemEffect ⟨h, {}⟩ (.push data)) 3 fun _ => True :=
      .relax (by decide) <| (Effect.Keeps.require _ _).bind fun _ hroom =>
        .push (Int.ofNat_le.mp (of_decide_eq_true hroom))
    exact hkeeps st hst.toFits
  | op o =>
    unfold itemEffect
    simp only
    split
    · have hkeeps : Effect.Keeps (do Effect.push (h.digest (← Effect.pop))) 3 fun _ => True :=
        .relax (by decide) <| Effect.Keeps.pop.bind fun x _ => .push (by rw [hw]; decide)
      exact hkeeps st hst.toFits
    · by_cases ho : o = .depth
      · subst ho
        exact Opcode.depth_bounded hst
      · exact Opcode.effect_keeps ho st hst.toFits

theorem condition_keeps (code : Opcode) : Effect.Keeps (condition code) 0 fun _ => True :=
  Effect.Keeps.pop.bind fun _ _ => (Effect.Keeps.check _ _).bind fun _ _ => .pure trivial

theorem onStacks_bounded {α : Type} {e : Effect α} {n : Nat} {post : α → Prop}
    (hb : Effect.Bounded n post (e m.stack)) :
    (left (onStacks e m)).stack.Fits ∧ (left (onStacks e m)).stack.size ≤ n := by
  unfold onStacks
  generalize e m.stack = r at hb
  cases hb with
  | ok fits items _ => exact ⟨fits, items⟩
  | error fits items => exact ⟨fits, items⟩

theorem openBranch_bounded (code : Opcode) (sense : Bool) (hm : m.stack.Fits) :
    (left (openBranch code sense m)).stack.Fits ∧
      (left (openBranch code sense m)).stack.size ≤ m.stack.size := by
  have hcondition := onStacks_bounded (condition_keeps code m.stack hm)
  unfold openBranch taken
  simp only [bind, EStateM.bind, get, getThe, MonadStateOf.get, EStateM.get]
  by_cases ha : m.active = true
  · simp only [ha, if_true, EStateM.bind]
    cases hc : onStacks (condition code) m with
    | error fault n =>
      rw [hc] at hcondition
      exact hcondition
    | ok c n =>
      rw [hc] at hcondition
      exact hcondition
  · simp only [ha]
    exact ⟨hm, Nat.le_refl _⟩

theorem move_bounded (item : Item) (hw : h.Wide) (hm : m.stack.Within) :
    (left (move ⟨h, {}⟩ item m)).stack.Fits ∧
      (left (move ⟨h, {}⟩ item m)).stack.size ≤ m.stack.size + 3 := by
  cases hc : item.conditional with
  | false =>
    rw [move_plain _ hc]
    exact onStacks_bounded (itemEffect_bounded hw hm)
  | true =>
    cases item with
    | push data => cases hc
    | op o =>
      cases o <;> first | cases hc; done | skip
      · obtain ⟨hfits, hitems⟩ := openBranch_bounded .ifTrue true hm.toFits
        exact ⟨hfits, Nat.le_trans hitems (Nat.le_add_right _ _)⟩
      · obtain ⟨hfits, hitems⟩ := openBranch_bounded .ifFalse false hm.toFits
        exact ⟨hfits, Nat.le_trans hitems (Nat.le_add_right _ _)⟩
      · obtain ⟨st, branches, position, executed, peak⟩ := m
        cases branches <;> exact ⟨hm.toFits, Nat.le_add_right _ _⟩
      · obtain ⟨st, branches, position, executed, peak⟩ := m
        cases branches <;> exact ⟨hm.toFits, Nat.le_add_right _ _⟩

theorem stack_act (env : Env) (r : Run Unit) (m : Machine) :
    (left (act env r m)).stack = (left (r m)).stack := by
  -- counting an item changes no stack, whether the count is within the limit or not
  rw [act_eq]
  cases r m with
  | error fault n => rfl
  | ok a n =>
    simp only
    split <;> rfl

/-- One step leaves no item too long, and at most three items more, even where it stops. -/
theorem step_bounded (item : Item) (hw : h.Wide) (hm : m.stack.Within) :
    (left (step ⟨h, {}⟩ item m)).stack.Fits ∧
      (left (step ⟨h, {}⟩ item m)).stack.size ≤ m.stack.size + 3 := by
  by_cases hi : item.conditional = true ∨ m.active = true
  · have hmove := move_bounded item hw hm
    rw [← stack_act ⟨h, {}⟩] at hmove
    rw [step_acting hi]
    generalize act ⟨h, {}⟩ (move ⟨h, {}⟩ item) m = r at hmove
    cases r <;> exact hmove
  · simp only [not_or, Bool.not_eq_true] at hi
    rw [step_idle hi.1 hi.2]
    exact ⟨hm.toFits, Nat.le_add_right _ _⟩

theorem within_of_step (hw : h.Wide) (hm : m.stack.Within)
    (hs : step ⟨h, {}⟩ item m = .ok () m') : m'.stack.Within where
  toFits := by
    have hstep := step_bounded item hw hm
    rw [hs] at hstep
    exact hstep.1
  items := Int.ofNat_le.mp (size_le_of_step ⟨h, {}⟩ (Int.ofNat_le.mpr hm.items) hs)

theorem within_of_run {h : Hasher} (hw : h.Wide) {s : Script} {m m' : Machine}
    (hm : m.stack.Within) (hr : run ⟨h, {}⟩ s m = .ok () m') : m'.stack.Within := by
  induction s generalizing m with
  | nil =>
    cases hr
    exact hm
  | cons item s ih =>
    obtain ⟨n, hs, hr⟩ := run_cons_eq_ok_iff.mp hr
    exact ih (within_of_step hw hm hs) hr

/-- A run leaves no item too long, and at most three items too many, wherever it stops. -/
theorem run_bounded (hw : h.Wide) (hm : m.stack.Within) :
    (left (run ⟨h, {}⟩ s m)).stack.Fits ∧ (left (run ⟨h, {}⟩ s m)).stack.size ≤ 1003 := by
  induction s generalizing m with
  | nil => exact ⟨hm.toFits, Nat.le_trans hm.items (by decide)⟩
  | cons item s ih =>
    rw [run_cons]
    cases hs : step ⟨h, {}⟩ item m with
    | error fault n =>
      have hstep := step_bounded item hw hm
      rw [hs] at hstep
      have hitems := hm.items
      exact ⟨hstep.1, Nat.le_trans hstep.2 (by omega)⟩
    | ok a n => exact ih (within_of_step hw hm hs)

theorem result_of_itemEffect {o : Opcode} {k : Nat} {st' : Stacks} (hst : st.Within)
    (ho : o.operands? = some k) (hh : o ≠ h.opcode)
    (he : itemEffect ⟨h, {}⟩ (.op o) st = .ok () st') :
    ∃ x, x.length ≤ 5 ∧ st' = ⟨x :: st.main.drop k, st.alt⟩ := by
  have heffect : itemEffect ⟨h, {}⟩ (.op o) = o.effect {} := if_neg hh
  rw [heffect] at he
  by_cases hd : o = .depth
  · subst hd
    cases ho
    exact Opcode.depth_yields hst he
  · exact Opcode.effect_yields hd ho st st' hst.toFits he

end Machine

theorem within_start : ({} : Machine).stack.Within := ⟨⟨by simp, by simp⟩, by decide⟩

theorem within_of_mem_trace {h : Hasher} (hw : h.Wide) {s : Script} {m : Machine}
    (hr : Machine.run ⟨h, {}⟩ s {} = .ok () m) {o : Outcome} (ho : o ∈ trace ⟨h, {}⟩ s) :
    o.machine.stack.Within := by
  obtain ⟨t, ht, rfl⟩ := mem_trace_iff.mp ho
  obtain ⟨n, -, hn, -⟩ := Machine.exists_run_of_prefix ht hr
  rw [execute_of_run hn]
  exact Machine.within_of_run hw within_start hn

/-- The limits are kept. Every initial part of a script that goes through leaves at most 1000 items
of at most 520 bytes, and there an opcode that computes a number or a flag has a result of at most
five bytes; a failure leaves at most 1003 items, none longer; and the peak of a success is at most
1000, and the largest number of items after an initial part. -/
theorem limits_kept {h : Hasher} (hw : h.Wide) (s : Script) :
    (∀ t m, t <+: s → Machine.run ⟨h, {}⟩ t {} = .ok () m →
      m.stack.Within ∧
      ∀ o k st, o.operands? = some k → o ≠ h.opcode →
        Machine.itemEffect ⟨h, {}⟩ (.op o) m.stack = .ok () st →
        ∃ x, x.length ≤ 5 ∧ st = ⟨x :: m.stack.main.drop k, m.stack.alt⟩) ∧
    ((execute ⟨h, {}⟩ s).success = false →
      (execute ⟨h, {}⟩ s).machine.stack.Fits ∧ (execute ⟨h, {}⟩ s).machine.stack.size ≤ 1003) ∧
    ((execute ⟨h, {}⟩ s).success = true →
      (execute ⟨h, {}⟩ s).machine.peak ≤ 1000 ∧
      ((trace ⟨h, {}⟩ s).map fun o => o.machine.stack.size).max? =
        some (execute ⟨h, {}⟩ s).machine.peak) := by
  refine ⟨?_, ?_, ?_⟩
  · intro t m _ hrun
    have hm := Machine.within_of_run hw within_start hrun
    exact ⟨hm, fun o k st ho hh he => Machine.result_of_itemEffect hm ho hh he⟩
  · intro _
    rw [execute_machine]
    exact Machine.run_bounded hw within_start
  · intro hsuccess
    obtain ⟨m, hrun, -⟩ := execute_success_iff.mp hsuccess
    have hmax := max_size_trace hrun
    rw [execute_of_run hrun]
    refine ⟨?_, hmax⟩
    obtain ⟨o, ho, hsize⟩ := List.mem_map.mp (List.max?_eq_some_iff.mp hmax).1
    rw [← hsize]
    exact (within_of_mem_trace hw hrun ho).items

theorem limits_kept_double :
    let h : Hasher := ⟨.sha256, fun _ => List.replicate 32 1⟩
    let s : Script := [.push [255, 255, 255, 127], .op .dup, .op .add]
    h.Wide ∧ (execute ⟨h, {}⟩ s).success = true ∧
      (∃ x, x.length ≤ 5 ∧ (execute ⟨h, {}⟩ s).machine.stack = ⟨[x], []⟩) ∧
      ((trace ⟨h, {}⟩ s).map fun o => o.machine.stack.size).max? = some 2 ∧
      (execute ⟨h, {}⟩ (s ++ [.op .abort])).success = false ∧
      (execute ⟨h, {}⟩ (s ++ [.op .abort])).machine.stack.Fits := by
  intro h s
  have hw : h.Wide := fun _ => rfl
  have hsuccess : (execute ⟨h, {}⟩ s).success = true := rfl
  have hfailure : (execute ⟨h, {}⟩ (s ++ [.op .abort])).success = false := rfl
  obtain ⟨hparts, -, hpeak⟩ := limits_kept hw s
  obtain ⟨-, hfits, -⟩ := limits_kept hw (s ++ [.op .abort])
  obtain ⟨-, hresult⟩ := hparts [.push [255, 255, 255, 127], .op .dup] _ ⟨[.op .add], rfl⟩ rfl
  exact ⟨hw, hsuccess, hresult .add 2 _ rfl (by decide) rfl, (hpeak hsuccess).2, hfailure,
    (hfits hfailure).1⟩

end HintScript
