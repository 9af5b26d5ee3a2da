import HintScript.Bytes
import HintScript.Opcode

set_option autoImplicit false

namespace HintScript

inductive NumberError where
  | tooLong (size : Nat) (limit : Int)
  | notMinimal (data : Bytes)
  deriving DecidableEq, Repr

def NumberError.message : NumberError → String
  | .tooLong size limit => s!"number is {size} bytes, at most {limit} allowed"
  | .notMinimal data => s!"non-minimally encoded number: {data.hex}"

inductive HintError where
  | unitCount (expected got : Nat)
  | tailSize (expected got : Nat)
  | otherHash
  deriving DecidableEq, Repr

def HintError.message : HintError → String
  | .unitCount expected got => s!"expected {expected} hint units, got {got}"
  | .tailSize expected got => s!"tail must be {expected} bytes, got {got}"
  | .otherHash => "hint does not reproduce the hash"

inductive WorkError where
  | suffixSize (expected got : Nat)
  | msbMissing (bits : Nat)
  | msbTooLarge (msb : Int) (bound : Nat)
  | msbUnexpected (bits : Nat)
  | otherHash
  deriving DecidableEq, Repr

def WorkError.message : WorkError → String
  | .suffixSize expected got => s!"suffix must be {expected} bytes, got {got}"
  | .msbMissing bits => s!"msb byte required for n_bits={bits}"
  | .msbTooLarge msb bound => s!"msb {msb} not below {bound}"
  | .msbUnexpected bits => s!"unexpected msb byte for n_bits={bits}"
  | .otherHash => "witness does not reproduce H(state || nonce)"

inductive PathError where
  | indexTooWide (index : Int) (depth : Nat)
  | otherRoot (index : Int)
  deriving DecidableEq, Repr

def PathError.message : PathError → String
  | .indexTooWide index depth => s!"index {index} does not fit in {depth} bits"
  | .otherRoot index => s!"root mismatch at index {index}"

/-- Why data offered by a prover is refused. -/
inductive Rejection where
  | num (cause : NumberError)
  | hint (cause : HintError)
  | work (cause : WorkError)
  | path (cause : PathError)
  deriving DecidableEq, Repr

def Rejection.message : Rejection → String
  | .num cause => cause.message
  | .hint cause => cause.message
  | .work cause => cause.message
  | .path cause => cause.message

/-- Why a request makes no sense, whoever makes it. -/
inductive ParamError where
  | wordSize (got : Nat)
  | quarticComponents (got : Nat)
  | emptyElement
  | commitmentSize (got : Nat)
  | componentCount (got : Int)
  | wordCount (got : Int)
  | hashSize (got : Nat)
  | logn (got : Int)
  | bitOrder (shown : String)
  | channelSize (got : Nat)
  | elementCount (got : Int)
  | difficulty (got : Int)
  | attempts (bits : Nat) (limit : Int)
  | depth (got : Int)
  | leafCount (got : Nat)
  | leafIndex (index : Int) (leaves : Nat)
  | siblingCount (expected got : Nat)
  | seedSize (got : Nat)
  | leavesExpected (expected got : Nat)
  | pushLengthCut
  | pushPastEnd (size : Nat)
  | unknownOpcode (code : UInt8) (offset : Nat)
  deriving DecidableEq, Repr

def ParamError.message : ParamError → String
  | .wordSize got => s!"word must be 4 bytes, got {got}"
  | .quarticComponents got => s!"QM31 needs 4 components, got {got}"
  | .emptyElement => "cannot commit to an empty element"
  | .commitmentSize got => s!"commitment must be 32 bytes, got {got}"
  | .componentCount got => s!"component count must be at least 1, got {got}"
  | .wordCount got => s!"word count must be in [1, 8], got {got}"
  | .hashSize got => s!"hash must be 32 bytes, got {got}"
  | .logn got => s!"logn must be in [1, 31], got {got}"
  | .bitOrder shown => s!"{shown} is not a valid QueryBitOrder"
  | .channelSize got => s!"channel state must be 32 bytes, got {got}"
  | .elementCount got => s!"element count must be at least 1, got {got}"
  | .difficulty got => s!"n_bits must be in [0, 256], got {got}"
  | .attempts bits limit => s!"no nonce with {bits} leading zero bits in {limit} attempts"
  | .depth got => s!"Merkle depth must be in [1, 31], got {got}"
  | .leafCount got => s!"leaf count must be a power of two and at least 2, got {got}"
  | .leafIndex index leaves => s!"index {index} out of range for {leaves} leaves"
  | .siblingCount expected got => s!"expected {expected} siblings, got {got}"
  | .seedSize got => s!"initial digest must be 32 bytes, got {got}"
  | .leavesExpected expected got => s!"expected {expected} leaves, got {got}"
  | .pushLengthCut => "truncated push length"
  | .pushPastEnd size => s!"push of {size} bytes runs past end of script"
  | .unknownOpcode code offset => s!"unknown opcode 0x{Bytes.hex [code]} at byte {offset}"

def digitLimit : Nat := 4300

inductive Error where
  | rejected (cause : Rejection)
  | invalid (cause : ParamError)
  | truthValue
  | nonceNegative
  | nonceTooLarge
  | digestCut
  | textTooLong
  | lengthTooLarge
  deriving DecidableEq, Repr

def Error.message : Error → String
  | .rejected cause => cause.message
  | .invalid cause => cause.message
  | .truthValue => "push bools as Opcode.OP_1 / Opcode.OP_0"
  | .nonceNegative => "can't convert negative int to unsigned"
  | .nonceTooLarge => "int too big to convert"
  | .digestCut => "index out of range"
  | .textTooLong => s!"Exceeds the limit ({digitLimit} digits) for integer string conversion; " ++
    "use sys.set_int_max_str_digits() to increase the limit"
  | .lengthTooLarge => "int too big to convert"

/-- The least number that has more digits than a message may name. -/
def textBound : Nat := Nat.pow 10 digitLimit

def Writable (n : Int) : Prop := n.natAbs < textBound

instance : DecidablePred Writable := fun n => inferInstanceAs (Decidable (n.natAbs < textBound))

/-- The number in a refusal's message that whoever asked is free to choose. -/
def Rejection.named? : Rejection → Option Int
  | .work (.msbTooLarge msb _) => some msb
  | .path (.indexTooWide index _) => some index
  | .path (.otherRoot index) => some index
  | _ => none

/-- A refusal is worded before it is raised. If the number in it has too many digits for that, an
error of another kind is raised in its place, which nobody takes for a refusal. -/
def Rejection.raised (cause : Rejection) : Error :=
  if ∀ n ∈ cause.named?, Writable n then .rejected cause else .textTooLong

theorem writable_of_lt {n : Int} (h : n.natAbs < 1 <<< 31) : Writable n :=
  Nat.lt_of_lt_of_le h (by decide +kernel)

theorem not_writable_of_le {n : Nat} (h : textBound ≤ n) : ¬ Writable n := by
  unfold Writable
  rw [Int.natAbs_natCast]
  exact Nat.not_lt.mpr h

theorem Rejection.raised_of_writable {cause : Rejection} (h : ∀ n ∈ cause.named?, Writable n) :
    cause.raised = .rejected cause := if_pos h

theorem Rejection.raised_of_not_writable {cause : Rejection} {n : Int}
    (hn : cause.named? = some n) (h : ¬ Writable n) : cause.raised = .textTooLong :=
  if_neg fun hall => h (hall n hn)

/-! ### Faults of a script run -/

inductive Fault where
  | underflow
  | altUnderflow
  | conditionNotMinimal (code : Opcode)
  | elseOutside
  | endIfOutside
  | pushTooLong (size : Nat)
  | unsupported (code : Opcode)
  | num (cause : NumberError)
  | failed (code : Opcode)
  | aborted
  | negativeIndex (code : Opcode)
  | catTooLong
  | stackTooLarge (size : Nat) (limit : Int)
  | unbalanced
  | notClean (size : Nat)
  | evaluatedFalse
  deriving DecidableEq, Repr

def Fault.message : Fault → String
  | .underflow => "stack underflow"
  | .altUnderflow => "altstack underflow"
  | .conditionNotMinimal o => s!"{o.name} argument must be minimal"
  | .elseOutside => "OP_ELSE without OP_IF"
  | .endIfOutside => "OP_ENDIF without OP_IF"
  | .pushTooLong size => s!"push of {size} bytes exceeds element limit"
  | .unsupported o => s!"opcode {o.name} is not supported"
  | .num cause => cause.message
  | .failed o => s!"{o.name} failed"
  | .aborted => "OP_RETURN executed"
  | .negativeIndex o => s!"{o.name} with negative index"
  | .catTooLong => "OP_CAT result exceeds element limit"
  | .stackTooLarge size limit => s!"stack size {size} exceeds {limit}"
  | .unbalanced => "unbalanced conditional at end of script"
  | .notClean size => s!"stack not clean: {size} items left"
  | .evaluatedFalse => "script evaluated to false"

structure Failure where
  fault : Fault
  position : Option Nat
  deriving DecidableEq, Repr

def Failure.message (f : Failure) : String :=
  match f.position with
  | none => f.fault.message
  | some i => s!"{f.fault.message} (at item {i})"

/-! ### Warnings -/

inductive Warning where
  | pathRejected (cause : PathError)
  | openingCount (expected got : Nat)
  | transcriptRejected (cause : Rejection)
  | openingDepth (opening got expected : Nat)
  | openingRejected (opening : Nat) (query : Int)
  | scriptFailed (failure : Failure)
  deriving DecidableEq, Repr

def Warning.message : Warning → String
  | .pathRejected cause => s!"Merkle path rejected: {cause.message}"
  | .openingCount expected got => s!"expected {expected} openings, got {got}"
  | .transcriptRejected cause => s!"transcript verification failed: {cause.message}"
  | .openingDepth opening got expected =>
    s!"opening {opening} has {got} siblings, expected {expected}"
  | .openingRejected opening query => s!"Merkle opening {opening} (query {query}) failed"
  | .scriptFailed failure => s!"query phase script failed: {failure.message}"

abbrev Logged := EStateM Error (List Warning)

def warn (w : Warning) : Logged Unit := modify (· ++ [w])

end HintScript
