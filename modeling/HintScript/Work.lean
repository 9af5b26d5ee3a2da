import HintScript.Script

set_option autoImplicit false

namespace HintScript

structure Difficulty where
  bits : Nat
  le : bits ≤ 256
  deriving DecidableEq, Repr

namespace Difficulty

def of (n : Int) : Except Error Difficulty :=
  if h : 0 ≤ n ∧ n ≤ 256 then .ok ⟨n.toNat, by omega⟩ else .error (.invalid (.difficulty n))

def whole (d : Difficulty) : Nat := d.bits / 8

def rem (d : Difficulty) : Nat := d.bits % 8

def suffixSize (d : Difficulty) : Nat := digestSize - d.whole - if d.rem = 0 then 0 else 1

/-- The byte after the zero bytes is below this, where bits of it are required. -/
def msbBound (d : Difficulty) : Nat := 1 <<< (8 - d.rem)

end Difficulty

namespace Work

def nonceSize : Nat := 8

def nonceBound : Nat := 1 <<< (8 * nonceSize)

def nonce (n : Int) : Except Error Bytes :=
  if n < 0 then .error .nonceNegative
  else if nonceBound ≤ n then .error .nonceTooLarge
  else .ok (Bytes.ofNatLE nonceSize n.toNat)

def leadingZeroBits : Bytes → Nat
  | [] => 0
  | b :: bs => if b = 0 then 8 + leadingZeroBits bs else 7 - b.toNat.log2

def meets (h : Hasher) (state : Bytes) (d : Difficulty) (nonce : Bytes) : Bool :=
  d.bits ≤ leadingZeroBits (h.digest (state ++ nonce))

def search (h : Hasher) (state : Bytes) (d : Difficulty) (start : Nat) (attempts : Option Int)
    (counter : Nat) : Except Error Bytes :=
  match attempts.filter (· ≤ (counter : Int) - start) with
  | some limit => .error (.invalid (.attempts d.bits limit))
  | none =>
    if counter < nonceBound then
      let candidate := Bytes.ofNatLE nonceSize counter
      if meets h state d candidate then .ok candidate
      else search h state d start attempts (counter + 1)
    else .error .nonceTooLarge
termination_by nonceBound - counter

def grind (h : Hasher) (state : Bytes) (d : Difficulty) (start : Int) (attempts : Option Int) :
    Except Error Bytes :=
  if 0 ≤ start then search h state d start.toNat attempts start.toNat
  else
    match attempts.filter (· ≤ 0) with
    | some limit => .error (.invalid (.attempts d.bits limit))
    | none => .error .nonceNegative

/-- What follows the zero bytes of a digest. A checker puts the zero bytes in front itself, so it
never has to trust them. -/
structure Witness where
  suffix : Bytes
  msb : Option Int
  deriving DecidableEq, Repr

namespace Witness

def of (h : Hasher) (state nonce : Bytes) (d : Difficulty) : Except Error Witness :=
  let digest := h.digest (state ++ nonce)
  if d.rem = 0 then .ok ⟨digest.drop d.whole, none⟩
  else
    match digest[d.whole]? with
    | some b => .ok ⟨digest.drop (d.whole + 1), some b.toNat⟩
    | none => .error .digestCut

def script (w : Witness) (nonce : Bytes) : Script :=
  Script.pushes [nonce, w.suffix] ++ Script.nums w.msb.toList

def middle (w : Witness) (d : Difficulty) : Except WorkError Bytes :=
  if d.rem = 0 then
    match w.msb with
    | none => .ok []
    | some _ => .error (.msbUnexpected d.bits)
  else
    match w.msb with
    | none => .error (.msbMissing d.bits)
    | some m =>
      if 0 ≤ m ∧ m < d.msbBound then .ok [UInt8.ofNat m.toNat]
      else .error (.msbTooLarge m d.msbBound)

end Witness

def checkWitness (h : Hasher) (state nonce : Bytes) (d : Difficulty) (w : Witness) :
    Except WorkError Unit := do
  if w.suffix.length ≠ d.suffixSize then
    throw (.suffixSize d.suffixSize w.suffix.length)
  let middle ← w.middle d
  if List.replicate d.whole 0 ++ middle ++ w.suffix ≠ h.digest (state ++ nonce) then
    throw .otherHash

def verify (h : Hasher) (state nonce : Bytes) (d : Difficulty) (w : Witness) :
    Except Error Bytes :=
  match checkWitness h state nonce d w with
  | .ok _ => .ok (h.digest state)
  | .error cause => .error (Rejection.work cause).raised

/-! ### The check as a script -/

open Script

/-- Takes the leading byte from the bottom as a number below the bound, and puts it before the
suffix on top. Zero arrives as the empty string and stands for the byte 00. -/
def msbScript (d : Difficulty) : Script :=
  fetch ++ ops [.dup] ++ num 0 ++ num d.msbBound ++ ops [.within, .verify] ++
  ops [.size, .not, .ifTrue, .drop] ++ bytes [0] ++ ops [.endIf, .swap, .cat]

def zerosScript (d : Difficulty) : Script :=
  bytes (List.replicate d.whole 0) ++ ops [.swap, .cat]

/-- Replaces the state on top by the advanced state; nonce, suffix and, where bits of it are
required, the leading byte are at the bottom of the stack. -/
def script (h : Hasher) (d : Difficulty) : Script :=
  ops [.dup] ++ hash h ++ ops [.toAlt] ++ fetch ++ ops [.cat] ++ hash h ++ fetch ++
  (if d.rem = 0 then [] else msbScript d) ++
  (if d.whole = 0 then [] else zerosScript d) ++
  ops [.equalVerify, .fromAlt]

end Work

end HintScript
