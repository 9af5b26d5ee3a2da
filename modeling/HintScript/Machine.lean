import HintScript.Script

set_option autoImplicit false

namespace HintScript

/-- Tops come first. -/
structure Stacks where
  main : List Bytes := []
  alt : List Bytes := []
  deriving DecidableEq, Repr

def Stacks.size (s : Stacks) : Nat := s.main.length + s.alt.length

structure Limits where
  stackItems : Int := 1000
  elementSize : Int := 520
  numSize : Int := Number.sizeLimit
  deriving DecidableEq, Repr

/-- An effect that stops with a fault leaves the stacks as they are then, operands taken. -/
abbrev Effect := EStateM Fault Stacks

namespace Effect

def push (x : Bytes) : Effect Unit := fun s => .ok () { s with main := x :: s.main }

def pop : Effect Bytes := fun s =>
  match s.main with
  | [] => .error .underflow s
  | x :: rest => .ok x { s with main := rest }

def peek (i : Nat) : Effect Bytes := fun s =>
  match s.main[i]? with
  | none => .error .underflow s
  | some x => .ok x s

def copy (i : Nat) : Effect Unit := do push (← peek i)

def move (i : Nat) : Effect Unit := fun s =>
  match s.main[i]? with
  | none => .error .underflow s
  | some x => .ok () { s with main := x :: s.main.eraseIdx i }

def toAlt : Effect Unit := do
  let x ← pop
  modify fun s => { s with alt := x :: s.alt }

def fromAlt : Effect Unit := fun s =>
  match s.alt with
  | [] => .error .altUnderflow s
  | x :: rest => .ok () ⟨x :: s.main, rest⟩

def depth : Effect Nat := return (← get).main.length

def pushNum (v : Int) : Effect Unit := push (Number.encode v)

def popNum (limits : Limits) : Effect Int := do
  match Number.decode (← pop) limits.numSize with
  | .ok v => return v
  | .error cause => throw (.num cause)

def unary (limits : Limits) (f : Int → Int) : Effect Unit := do
  pushNum (f (← popNum limits))

def binary (limits : Limits) (f : Int → Int → Int) : Effect Unit := do
  let b ← popNum limits
  let a ← popNum limits
  pushNum (f a b)

def require (condition : Bool) (fault : Fault) : Effect Unit :=
  if condition then pure () else throw fault

def popIndex (limits : Limits) (code : Opcode) : Effect Nat := do
  let n ← popNum limits
  require (0 ≤ n) (.negativeIndex code)
  return n.toNat

end Effect

open Effect Number in
/-- Opcodes that only push data, conditionals and the hash have no effect of their own here. -/
def Opcode.effect (limits : Limits) : Opcode → Effect Unit
  | .nop => pure ()
  | .verify => do require (isTrue (← pop)) (.failed .verify)
  | .abort => throw .aborted
  | .toAlt => Effect.toAlt
  | .fromAlt => Effect.fromAlt
  | .drop2 => do
    let _ ← pop
    let _ ← pop
  | .dup2 => do copy 1; copy 1
  | .dup3 => do copy 2; copy 2; copy 2
  | .over2 => do copy 3; copy 3
  | .rot2 => do move 5; move 5
  | .swap2 => do move 3; move 3
  | .ifDup => do if isTrue (← peek 0) then copy 0
  | .depth => do pushNum (← Effect.depth)
  | .drop => do let _ ← pop
  | .dup => copy 0
  | .nip => do
    let top ← pop
    let _ ← pop
    push top
  | .over1 => copy 1
  | .pick => do copy (← popIndex limits .pick)
  | .roll => do move (← popIndex limits .roll)
  | .rot => move 2
  | .swap => move 1
  | .tuck => do
    let top ← pop
    let second ← pop
    push top
    push second
    push top
  | .cat => do
    let top ← pop
    let second ← pop
    require ((second.length : Int) + top.length ≤ limits.elementSize) .catTooLong
    push (second ++ top)
  | .size => do pushNum (← peek 0).length
  | .equal => do push (ofBool ((← pop) = (← pop)))
  | .equalVerify => do require ((← pop) = (← pop)) (.failed .equalVerify)
  | .add1 => unary limits (· + 1)
  | .sub1 => unary limits (· - 1)
  | .negate => unary limits (- ·)
  | .abs => unary limits fun a => a.natAbs
  | .not => unary limits fun a => flag (a = 0)
  | .notZero => unary limits fun a => flag (a ≠ 0)
  | .add => binary limits (· + ·)
  | .sub => binary limits (· - ·)
  | .boolAnd => binary limits fun a b => flag (a ≠ 0 ∧ b ≠ 0)
  | .boolOr => binary limits fun a b => flag (a ≠ 0 ∨ b ≠ 0)
  | .numEqual => binary limits fun a b => flag (a = b)
  | .numEqualVerify => do
    let b ← popNum limits
    let a ← popNum limits
    require (a = b) (.failed .numEqualVerify)
  | .numNotEqual => binary limits fun a b => flag (a ≠ b)
  | .less => binary limits fun a b => flag (a < b)
  | .greater => binary limits fun a b => flag (a > b)
  | .lessEq => binary limits fun a b => flag (a ≤ b)
  | .greaterEq => binary limits fun a b => flag (a ≥ b)
  | .min => binary limits fun a b => if b < a then b else a
  | .max => binary limits fun a b => if a < b then b else a
  | .within => do
    let upper ← popNum limits
    let lower ← popNum limits
    let x ← popNum limits
    push (ofBool (lower ≤ x ∧ x < upper))
  | code => throw (.unsupported code)

/-! ### Runs -/

structure Env where
  hasher : Hasher
  limits : Limits := {}

structure Machine where
  stack : Stacks := {}
  /-- Open branches, innermost first: whether each is taken. -/
  branches : List Bool := []
  /-- Items passed so far, those in branches not taken included. -/
  position : Nat := 0
  executed : Nat := 0
  peak : Nat := 0
  deriving DecidableEq, Repr

namespace Machine

def active (m : Machine) : Bool := m.branches.all id

abbrev Run := EStateM Fault Machine

def onStacks {α : Type} (e : Effect α) : Run α := fun m =>
  match e m.stack with
  | .ok a s => .ok a { m with stack := s }
  | .error f s => .error f { m with stack := s }

def condition (code : Opcode) : Effect Bool := do
  let top ← Effect.pop
  Effect.require (top = [] ∨ top = [1]) (.conditionNotMinimal code)
  return top = [1]

/-- Whether a branch that opens here is taken; one inside a branch not taken asks for no condition. -/
def taken (code : Opcode) (sense : Bool) : Run Bool := do
  if (← get).active then
    let c ← onStacks (condition code)
    return c == sense
  else
    return false

def openBranch (code : Opcode) (sense : Bool) : Run Unit := do
  let b ← taken code sense
  modify fun m => { m with branches := b :: m.branches }

def turnBranch : Run Unit := fun m =>
  match m.branches with
  | [] => .error .elseOutside m
  | b :: bs => .ok () { m with branches := (!b) :: bs }

def closeBranch : Run Unit := fun m =>
  match m.branches with
  | [] => .error .endIfOutside m
  | _ :: bs => .ok () { m with branches := bs }

/-- What an item outside the conditionals does to the stacks. The opcode of the hasher hashes,
whichever it is. -/
def itemEffect (env : Env) : Item → Effect Unit
  | .push data => do
    Effect.require ((data.length : Int) ≤ env.limits.elementSize) (.pushTooLong data.length)
    Effect.push data
  | .op o =>
    if o = env.hasher.opcode then do Effect.push (env.hasher.digest (← Effect.pop))
    else o.effect env.limits

def account (limit : Int) : Run Unit := do
  modify fun m =>
    { m with executed := m.executed + 1, peak := max m.peak m.stack.size }
  let size := (← get).stack.size
  if limit < size then throw (.stackTooLarge size limit)

def act (env : Env) (run : Run Unit) : Run Unit := do
  run
  account env.limits.stackItems

def step (env : Env) (item : Item) : Run Unit := do
  match item with
  | .op .ifTrue => act env (openBranch .ifTrue true)
  | .op .ifFalse => act env (openBranch .ifFalse false)
  | .op .orElse => act env turnBranch
  | .op .endIf => act env closeBranch
  | item => if (← get).active then act env (onStacks (itemEffect env item))
  modify fun m => { m with position := m.position + 1 }

def run (env : Env) : Script → Run Unit
  | [] => pure ()
  | item :: rest => do
    step env item
    run env rest

theorem run_append (env : Env) (s t : Script) :
    run env (s ++ t) = (do run env s; run env t) := by
  induction s with
  | nil => simp [run]
  | cons item s ih => simp [run, ih]

def endFault (m : Machine) : Option Fault :=
  if m.branches ≠ [] then some .unbalanced
  else
    match m.stack.main with
    | [x] => if Number.isTrue x then none else some .evaluatedFalse
    | xs => some (.notClean xs.length)

end Machine

structure Outcome where
  failure : Option Failure
  machine : Machine
  deriving DecidableEq, Repr

namespace Outcome

def success (o : Outcome) : Bool := o.failure.isNone

def mainStack (o : Outcome) : List Bytes := o.machine.stack.main

def altStack (o : Outcome) : List Bytes := o.machine.stack.alt

end Outcome

def execute (env : Env) (s : Script) : Outcome :=
  match Machine.run env s {} with
  | .error fault m => ⟨some ⟨fault, some m.position⟩, m⟩
  | .ok _ m => ⟨m.endFault.map fun fault => ⟨fault, none⟩, m⟩

def trace (env : Env) (s : Script) : List Outcome :=
  (List.range (s.length + 1)).map fun k => execute env (s.take k)

/-- Runs a script and reports on it, for which its size on the wire is asked. -/
def executeReported (env : Env) (s : Script) : Except Error Outcome := do
  let outcome := execute env s
  let _ ← s.measure
  return outcome

end HintScript
