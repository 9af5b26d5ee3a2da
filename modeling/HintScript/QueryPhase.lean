import HintScript.Channel
import HintScript.Machine
import HintScript.Merkle
import HintScript.Work

/-! The query phase: a prover commits to leaves, and the channel chooses which are opened.

1. From the seed, absorb the root of the leaves.
2. Squeeze a random element.
3. Absorb the claimed value.
4. Check the work.
5. Squeeze five queries.
6. Open the tree at each of them.
-/

set_option autoImplicit false

namespace HintScript.QueryPhase

structure Config where
  seed : Bytes
  difficulty : Difficulty
  width : Width
  order : BitOrder
  wide : seed.length = digestSize

def queryCount : Nat := 5

def Config.of (seed : Bytes) (bits logn : Int) (order : BitOrder) : Except Error Config :=
  if h : seed.length = digestSize then do
    let width ← Width.ofLogn logn
    let difficulty ← Difficulty.of bits
    return ⟨seed, difficulty, width, order, h⟩
  else .error (.invalid (.seedSize seed.length))

structure Proof where
  root : Bytes
  alphaHint : Hint
  claimed : QM31
  nonce : Bytes
  witness : Work.Witness
  queriesHint : Hint
  openings : List Merkle.Opening
  deriving DecidableEq, Repr

/-- Pushes in the order in which the script takes them from the bottom; it opens the last query
first. -/
def Proof.script (p : Proof) : Script :=
  Script.bytes p.root ++ p.alphaHint.script ++ Script.nums p.claimed.components ++
  p.witness.script p.nonce ++ p.queriesHint.script ++
  p.openings.reverse.flatMap Merkle.Opening.script

/-! ### The prover -/

def answer (h : Hasher) (c : Config) (tree : Merkle.Tree) (claimed : QM31)
    (attempts : Option Int) : Channel Proof := do
  Channel.absorb h tree.root
  let (_, alphaHint) ← Channel.squeezeElement h
  Channel.absorbElement h claimed
  let state ← get
  let nonce ← ofExcept (Work.grind h state c.difficulty 0 attempts)
  let witness ← ofExcept (Work.Witness.of h state nonce c.difficulty)
  set (← ofExcept (Work.verify h state nonce c.difficulty witness))
  let (queries, queriesHint) ← Channel.squeezeQueries h c.width.bits c.order
  let openings ← queries.mapM fun q => ofExcept (tree.openAt q)
  return ⟨tree.root, alphaHint, claimed, nonce, witness, queriesHint, openings⟩

def prove (h : Hasher) (c : Config) (leaves : List QM31) (claimed : QM31)
    (attempts : Option Int) : Except Error Proof := do
  if leaves.length ≠ c.width.leaves then
    throw (.invalid (.leavesExpected c.width.leaves leaves.length))
  let tree ← Merkle.Tree.build h leaves
  match answer h c tree claimed attempts c.seed with
  | .ok proof _ => return proof
  | .error e _ => throw e

/-! ### The verifier -/

def transcript (h : Hasher) (c : Config) (p : Proof) : Channel (List Int) := do
  let _ ← Channel.checkElement h p.alphaHint
  Channel.absorbElement h p.claimed
  set (← ofExcept (Work.verify h (← get) p.nonce c.difficulty p.witness))
  Channel.checkQueries h p.queriesHint c.width.bits c.order

def verifyOpenings (h : Hasher) (c : Config) (root : Bytes) (i : Nat) :
    List (Int × Merkle.Opening) → Logged Bool
  | [] => return true
  | (query, opening) :: rest => do
    if opening.siblings.length ≠ c.width.bits then
      warn (.openingDepth i opening.siblings.length c.width.bits)
      return false
    if ← Merkle.verify h root c.width.bits opening query then
      verifyOpenings h c root (i + 1) rest
    else
      warn (.openingRejected i query)
      return false

/-- Whether every check passes. Data that is refused gives a warning; a root that is no digest, and
work whose refusal cannot be worded, are errors. -/
def verify (h : Hasher) (c : Config) (p : Proof) : Logged Bool := do
  if p.openings.length ≠ queryCount then
    warn (.openingCount queryCount p.openings.length)
    return false
  match Channel.absorb h p.root c.seed with
  | .error e _ => throw e
  | .ok _ state =>
    match transcript h c p state with
    | .error (.rejected cause) _ =>
      warn (.transcriptRejected cause)
      return false
    | .error e _ => throw e
    | .ok queries _ => verifyOpenings h c p.root 0 (queries.zip p.openings)

def finalState (h : Hasher) (c : Config) (p : Proof) : Except Error Bytes :=
  let run : Channel Unit := do
    Channel.absorb h p.root
    Channel.advance h
    Channel.absorbElement h p.claimed
    Channel.advance h
    Channel.advance h
  match run c.seed with
  | .ok _ state => .ok state
  | .error e _ => .error e

/-! ### The script -/

open Script

def openScript (h : Hasher) (c : Config) : Script :=
  ops [.fromAlt, .dup, .toAlt, .swap] ++ Merkle.openingScript h c.width ++ ops [.drop2, .drop2]

/-- Takes the pushes of a proof and leaves the final channel state. -/
def script (h : Hasher) (c : Config) : Script :=
  bytes c.seed ++
  fetch ++ ops [.dup, .toAlt] ++ Channel.absorbScript h ++
  Channel.squeezeElementScript h ++ ops [.drop2, .drop2] ++
  times 4 fetch ++ Channel.absorbElementScript h ++
  Work.script h c.difficulty ++
  Channel.squeezeQueriesScript h c.width c.order ++
  times queryCount (openScript h c) ++
  ops [.fromAlt, .drop]

def run (h : Hasher) (c : Config) (p : Proof) : Logged Outcome := do
  let outcome ← ofExcept (executeReported ⟨h, {}⟩ (p.script ++ script h c))
  if let some failure := outcome.failure then warn (.scriptFailed failure)
  return outcome

end HintScript.QueryPhase
