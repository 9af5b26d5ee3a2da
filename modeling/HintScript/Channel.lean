import HintScript.Commitment
import HintScript.Extraction

set_option autoImplicit false

namespace HintScript

/-- Computations on the state of a transcript s. Absorbing c takes it to H(s ‖ c). Drawing gives
H(s ‖ 00) and takes it to H(s) whatever becomes of the digest drawn, so a refused hint leaves the
advanced state. -/
abbrev Channel := EStateM Error Bytes

namespace Channel

def start (digest : Bytes) : Except Error Bytes :=
  if digest.length = digestSize then .ok digest
  else .error (.invalid (.channelSize digest.length))

def absorb (h : Hasher) (commitment : Bytes) : Channel Unit := do
  if commitment.length ≠ digestSize then throw (.invalid (.commitmentSize commitment.length))
  modify fun s => h.digest (s ++ commitment)

def absorbElement (h : Hasher) (x : QM31) : Channel Unit := do
  let c ← ofExcept (Commitment.ofQM31 h x)
  modify fun s => h.digest (s ++ c.digest)

def absorbElements (h : Hasher) : List QM31 → Channel Unit
  | [] => pure ()
  | x :: xs => do
    absorbElement h x
    absorbElements h xs

def advance (h : Hasher) : Channel Unit := modify h.digest

def drawMark : Bytes := [0]

def draw (h : Hasher) : Channel Bytes := do
  let digest := h.digest ((← get) ++ drawMark)
  advance h
  return digest

def squeezeElement (h : Hasher) : Channel (QM31 × Hint) := do
  ofExcept (Extraction.extractElement (← draw h))

def squeezeQueries (h : Hasher) (logn : Int) (order : BitOrder) : Channel (List Int × Hint) := do
  -- checked before anything is drawn, so that a wrong width leaves the state alone
  let w ← ofExcept (Width.ofLogn logn)
  ofExcept (Extraction.extractQueries (← draw h) w order)

def checkElement (h : Hasher) (hint : Hint) : Channel QM31 := do
  ofExcept (Extraction.unpackElement (← draw h) hint)

def checkQueries (h : Hasher) (hint : Hint) (logn : Int) (order : BitOrder) :
    Channel (List Int) := do
  let w ← ofExcept (Width.ofLogn logn)
  ofExcept (Extraction.unpackQueries (← draw h) hint w order)

/-! ### Scripts on a state at the top of the stack -/

section

open Script

def startScript (digest : Bytes) : Except Error Script := do
  return bytes (← start digest)

def absorbScript (h : Hasher) : Script := ops [.cat] ++ hash h

def absorbElementScript (h : Hasher) : Script := Commitment.script h 4 ++ absorbScript h

def absorbElementsScript (h : Hasher) (n : Nat) : Script :=
  times n (Commitment.script h 4 ++ ops [.toAlt]) ++ times n (ops [.fromAlt] ++ absorbScript h)

def absorbElementsScriptFor (h : Hasher) (n : Int) : Except Error Script :=
  if n < 1 then .error (.invalid (.elementCount n)) else .ok (absorbElementsScript h n.toNat)

def drawScript (h : Hasher) : Script :=
  ops [.dup] ++ hash h ++ ops [.swap] ++ bytes drawMark ++ ops [.cat] ++ hash h

/-- The hint is at the bottom of the stack. -/
def squeezeElementScript (h : Hasher) : Script := drawScript h ++ Extraction.script .four

def squeezeQueriesScript (h : Hasher) (w : Width) (order : BitOrder) : Script :=
  drawScript h ++ Extraction.queriesScript w order

end

/-! ### Sequences of operations -/

inductive Step where
  | absorb (commitment : Bytes)
  | absorbElement (x : QM31)
  | absorbElements (xs : List QM31)
  | draw
  | squeezeElement
  | squeezeQueries (logn : Int) (order : BitOrder)
  | checkElement (hint : Hint)
  | checkQueries (hint : Hint) (logn : Int) (order : BitOrder)
  deriving DecidableEq, Repr

inductive Reply where
  | done
  | digest (data : Bytes)
  | values (vs : List Int)
  | hinted (vs : List Int) (hint : Hint)
  deriving DecidableEq, Repr

def Step.run (h : Hasher) : Step → Channel Reply
  | absorb c => do
    Channel.absorb h c
    return .done
  | absorbElement x => do
    Channel.absorbElement h x
    return .done
  | absorbElements xs => do
    Channel.absorbElements h xs
    return .done
  | draw => return .digest (← Channel.draw h)
  | squeezeElement => do
    let (x, hint) ← Channel.squeezeElement h
    return .hinted x.components hint
  | squeezeQueries logn order => do
    let (vs, hint) ← Channel.squeezeQueries h logn order
    return .hinted vs hint
  | checkElement hint => return .values (← Channel.checkElement h hint).components
  | checkQueries hint logn order => return .values (← Channel.checkQueries h hint logn order)

/-- Runs steps in turn, each from the state that the one before left, failed or not. A step that
could not be read leaves the state alone. Each reply stands with the state after its step. -/
def replay (h : Hasher) : List (Except Error Step) → Bytes → List (Except Error Reply × Bytes)
  | [], _ => []
  | .error e :: steps, s => (.error e, s) :: replay h steps s
  | .ok step :: steps, s =>
    match step.run h s with
    | .ok reply s' => (.ok reply, s') :: replay h steps s'
    | .error e s' => (.error e, s') :: replay h steps s'

end Channel

end HintScript
