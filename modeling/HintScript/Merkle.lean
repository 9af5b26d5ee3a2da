import HintScript.Commitment
import HintScript.Extraction

set_option autoImplicit false

namespace HintScript.Merkle

def node (h : Hasher) (left right : Bytes) : Bytes := h.digest (left ++ right)

def above (h : Hasher) : List Bytes → List Bytes
  | l :: r :: rest => node h l r :: above h rest
  | _ => []

def layersFrom (h : Hasher) : Nat → List Bytes → List (List Bytes)
  | 0, layer => [layer]
  | depth + 1, layer => layer :: layersFrom h depth (above h layer)

/-- A leaf with the nodes beside its path to the root, lowest first. -/
structure Opening where
  leaf : QM31
  siblings : List Bytes
  deriving DecidableEq, Repr

def Opening.siblingsScript (o : Opening) : Script := Script.pushes o.siblings

def Opening.script (o : Opening) : Script := Script.nums o.leaf.components ++ o.siblingsScript

structure Tree where
  width : Width
  leaves : List QM31
  layers : List (List Bytes)
  deriving DecidableEq, Repr

namespace Tree

def build (h : Hasher) (leaves : List QM31) : Except Error Tree := do
  let n := leaves.length
  let depth := n.log2
  if n < 2 ∨ n ≠ 1 <<< depth then throw (.invalid (.leafCount n))
  let width ← Width.ofDepth depth
  let commitments ← leaves.mapM (Commitment.ofQM31 h)
  return ⟨width, leaves, layersFrom h depth (commitments.map Commitment.digest)⟩

def root (t : Tree) : Bytes := ((t.layers.getLast?.getD []).head?).getD []

def beside (i : Nat) : Nat := if i % 2 = 0 then i + 1 else i - 1

def siblings : List (List Bytes) → Nat → List Bytes
  | [], _ => []
  | [_], _ => []
  | layer :: rest, i => layer.getD (beside i) [] :: siblings rest (i / 2)

def openAt (t : Tree) (index : Int) : Except Error Opening :=
  if 0 ≤ index then
    match t.leaves[index.toNat]? with
    | some leaf => .ok ⟨leaf, siblings t.layers index.toNat⟩
    | none => .error (.invalid (.leafIndex index t.leaves.length))
  else .error (.invalid (.leafIndex index t.leaves.length))

end Tree

/-- Node reached from `current` through the siblings. The lowest bit of the index says whether
`current` is a right child. -/
def climb (h : Hasher) (current : Bytes) (index : Nat) : List Bytes → Bytes
  | [] => current
  | s :: rest =>
    climb h (if index % 2 = 1 then node h s current else node h current s) (index / 2) rest

def checkPath (h : Hasher) (root leaf : Bytes) (index : Int) (siblings : List Bytes) :
    Except Error Unit := do
  let w ← Width.ofDepth siblings.length
  if ¬(0 ≤ index ∧ index < w.leaves) then
    throw (Rejection.path (.indexTooWide index w.bits)).raised
  if climb h leaf index.toNat siblings ≠ root then
    throw (Rejection.path (.otherRoot index)).raised

def verifyPath (h : Hasher) (root leaf : Bytes) (index : Int) (siblings : List Bytes) :
    Logged Bool :=
  match checkPath h root leaf index siblings with
  | .ok _ => return true
  | .error (.rejected (.path cause)) => do
    warn (.pathRejected cause)
    return false
  | .error e => throw e

def verify (h : Hasher) (root : Bytes) (depth : Int) (opening : Opening) (index : Int) :
    Logged Bool := do
  let w ← ofExcept (Width.ofDepth depth)
  if opening.siblings.length ≠ w.bits then
    throw (.invalid (.siblingCount w.bits opening.siblings.length))
  let leaf ← ofExcept (Commitment.ofQM31 h opening.leaf)
  verifyPath h root leaf.digest index opening.siblings

/-! ### Scripts; siblings are at the bottom of the stack -/

open Script

def rangeScript (w : Width) : Script :=
  ops [.dup] ++ num 0 ++
  -- a number on the machine has 31 bits
  if w.bits = 31 then ops [.greaterEq, .verify]
  else num (1 <<< w.bits : Nat) ++ ops [.within, .verify]

def bitsDown : Nat → Script
  | 0 => []
  | k + 1 =>
    ops [.dup] ++ num (1 <<< (k + 1) : Nat) ++ ops [.greaterEq, .dup, .toAlt, .ifTrue] ++
    num (1 <<< (k + 1) : Nat) ++ ops [.sub, .endIf] ++ bitsDown k

/-- Checks the index on top and moves its bits to the alt stack, bit 0 last. -/
def bitsScript (w : Width) : Script :=
  rangeScript w ++ bitsDown (w.bits - 1) ++ ops [.toAlt]

def pathScript (h : Hasher) (w : Width) : Script :=
  bitsScript w ++
  times w.bits (fetch ++ ops [.fromAlt, .ifTrue, .swap, .endIf, .cat] ++ hash h) ++
  ops [.equalVerify]

/-- Takes root and index; leaves the components of the leaf, which are at the bottom of the stack
before the siblings. -/
def openingScript (h : Hasher) (w : Width) : Script :=
  times 4 fetch ++
  ops [.dup, .toAlt, .over1, .toAlt] ++
  num 2 ++ ops [.pick, .toAlt] ++ num 3 ++ ops [.pick, .toAlt] ++
  Commitment.script h 4 ++ ops [.swap] ++ pathScript h w ++ times 4 (ops [.fromAlt])

end HintScript.Merkle
