import HintScript.Field
import HintScript.Script

/-! Commitments to field elements by nested hashing.

Components c₀, …, cₖ commit to H(c₀ ‖ H(c₁ ‖ … H(cₖ))), each written as a number. A script for it
needs one hash a component and no further stack work.
-/

set_option autoImplicit false

namespace HintScript

structure Commitment where
  digest : Bytes
  wide : digest.length = digestSize
  deriving DecidableEq

namespace Commitment

def ofDigest (digest : Bytes) : Except Error Commitment :=
  if h : digest.length = digestSize then .ok ⟨digest, h⟩
  else .error (.invalid (.commitmentSize digest.length))

def nested (h : Hasher) (c : Int) : List Int → Bytes
  | [] => h.digest (Number.encode c)
  | d :: rest => h.digest (Number.encode c ++ nested h d rest)

def ofComponents (h : Hasher) : List Int → Except Error Commitment
  | [] => .error (.invalid .emptyElement)
  | c :: rest => ofDigest (nested h c rest)

def ofCM31 (h : Hasher) (x : CM31) : Except Error Commitment := ofComponents h x.components

def ofQM31 (h : Hasher) (x : QM31) : Except Error Commitment := ofComponents h x.components

open Script in
/-- Replaces `k` components on the stack, the last on top, by their commitment. -/
def script (h : Hasher) (k : Nat) : Script :=
  hash h ++ times (k - 1) (ops [.cat] ++ hash h)

def scriptFor (h : Hasher) (k : Int) : Except Error Script :=
  if k < 1 then .error (.invalid (.componentCount k)) else .ok (script h k.toNat)

end Commitment

end HintScript
