import HintScript.Field
import HintScript.Script
import HintScript.Text

set_option autoImplicit false

namespace HintScript

namespace Word

def size : Nat := 4

def negativeZero : Bytes := [0, 0, 0, 0x80]

def negativeZeroUnit : Bytes := [0x80]

/-- The number that a word is when read as sign and magnitude. The word 00 00 00 80 is that of no
minimal number, and has a single byte. -/
def unit (word : Bytes) : Bytes :=
  if word = negativeZero then negativeZeroUnit else Number.encode (Number.value word)

def unitOf (word : Bytes) : Except Error Bytes :=
  if word.length = size then .ok (unit word) else .error (.invalid (.wordSize word.length))

def raw (word : Bytes) : Nat := (Number.value word).natAbs

def ofUnit (u : Bytes) : Except NumberError (Bytes × Nat) :=
  if u = negativeZeroUnit then .ok (negativeZero, 0)
  else do
    let v ← Number.decode u Number.sizeLimit
    return (Number.pack size v, v.natAbs)

/-- Takes a magnitude of 31 bits into the field by lowering nonzero values by one. -/
def canonical (raw : Int) : Int := if raw = 0 then 0 else raw - 1

end Word

structure Width where
  bits : Nat
  pos : 1 ≤ bits
  le : bits ≤ 31
  deriving DecidableEq, Repr

namespace Width

def of? (n : Int) : Option Width :=
  if h : 1 ≤ n ∧ n ≤ 31 then some ⟨n.toNat, by omega, by omega⟩ else none

def ofLogn (n : Int) : Except Error Width :=
  match of? n with
  | some w => .ok w
  | none => .error (.invalid (.logn n))

def ofDepth (n : Int) : Except Error Width :=
  match of? n with
  | some w => .ok w
  | none => .error (.invalid (.depth n))

def leaves (w : Width) : Nat := 1 <<< w.bits

end Width

inductive BitOrder where
  | low
  | high
  deriving DecidableEq, Repr

def BitOrder.name : BitOrder → String
  | .low => "low"
  | .high => "high"

def BitOrder.of (given : Text.Literal) : Except Error BitOrder :=
  match given with
  | .text "low" => .ok .low
  | .text "high" => .ok .high
  | other => .error (.invalid (.bitOrder other.render))

def BitOrder.trim (order : BitOrder) (w : Width) (value : Int) : Int :=
  match order with
  | .low => value % (1 <<< w.bits : Nat)
  | .high => value / (1 <<< (31 - w.bits) : Nat)

/-- The first words of a digest as units, and the remaining bytes as they are. A machine that cannot
cut the digest rebuilds the words, joins them with the tail and compares. -/
structure Hint where
  units : List Bytes
  tail : Bytes
  deriving DecidableEq, Repr

def Hint.script (hint : Hint) : Script := Script.pushes (hint.units ++ [hint.tail])

structure WordCount where
  count : Nat
  pos : 1 ≤ count
  le : count ≤ 8
  deriving Repr

namespace WordCount

def of (n : Int) : Except Error WordCount :=
  if h : 1 ≤ n ∧ n ≤ 8 then .ok ⟨n.toNat, by omega, by omega⟩
  else .error (.invalid (.wordCount n))

def one : WordCount := ⟨1, by decide, by decide⟩

def two : WordCount := ⟨2, by decide, by decide⟩

def four : WordCount := ⟨4, by decide, by decide⟩

def five : WordCount := ⟨5, by decide, by decide⟩

end WordCount

namespace Extraction

def words : Nat → Bytes → List Bytes
  | 0, _ => []
  | n + 1, data => data.take Word.size :: words n (data.drop Word.size)

def extract (digest : Bytes) (n : WordCount) : Except Error (List Int × Hint) :=
  if digest.length = digestSize then
    let ws := words n.count digest
    .ok (ws.map fun w => Word.canonical (Word.raw w),
      ⟨ws.map Word.unit, digest.drop (Word.size * n.count)⟩)
  else .error (.invalid (.hashSize digest.length))

def readUnits : List Bytes → Except NumberError (List (Bytes × Int))
  | [] => .ok []
  | u :: us => do
    let (word, raw) ← Word.ofUnit u
    let rest ← readUnits us
    return (word, Word.canonical raw) :: rest

def unpack (digest : Bytes) (hint : Hint) (n : WordCount) : Except Error (List Int) := do
  let tailSize := digestSize - Word.size * n.count
  if hint.units.length ≠ n.count then
    throw (.rejected (.hint (.unitCount n.count hint.units.length)))
  if hint.tail.length ≠ tailSize then
    throw (.rejected (.hint (.tailSize tailSize hint.tail.length)))
  match readUnits hint.units with
  | .error cause => throw (.rejected (.num cause))
  | .ok pairs =>
    if (pairs.map Prod.fst).flatten ++ hint.tail ≠ digest then
      throw (.rejected (.hint .otherHash))
    return pairs.map Prod.snd

def extractElement (digest : Bytes) : Except Error (QM31 × Hint) := do
  let (values, hint) ← extract digest .four
  return (← QM31.ofList values, hint)

def unpackElement (digest : Bytes) (hint : Hint) : Except Error QM31 := do
  QM31.ofList (← unpack digest hint .four)

def extractQueries (digest : Bytes) (w : Width) (order : BitOrder) :
    Except Error (List Int × Hint) := do
  let (values, hint) ← extract digest .five
  return (values.map (order.trim w), hint)

def unpackQueries (digest : Bytes) (hint : Hint) (w : Width) (order : BitOrder) :
    Except Error (List Int) := do
  return (← unpack digest hint .five).map (order.trim w)

end Extraction

/-! ### Scripts that check a hint and trim values -/

open Script

namespace Word

/-- Turns the unit on top into its word, and leaves its magnitude on the alt stack. -/
def script : Script :=
  ops [.dup] ++ bytes negativeZeroUnit ++ ops [.equal, .ifTrue] ++
  ops [.drop] ++ bytes [] ++ ops [.toAlt] ++ bytes negativeZero ++
  ops [.orElse, .dup, .abs, .dup, .toAlt, .size] ++ num size ++ ops [.less, .ifTrue] ++
  -- the unit is its own magnitude unless it is negative
  ops [.dup, .rot, .equal, .toAlt] ++
  ops [.size] ++ num 2 ++ ops [.less, .ifTrue] ++ bytes [0, 0] ++ ops [.cat, .endIf] ++
  ops [.size] ++ num 3 ++ ops [.less, .ifTrue] ++ bytes [0] ++ ops [.cat, .endIf] ++
  ops [.fromAlt, .ifTrue] ++ bytes [0] ++ ops [.orElse] ++ bytes [0x80] ++ ops [.endIf, .cat] ++
  ops [.orElse, .drop, .endIf, .endIf]

def canonicalScript : Script := ops [.dup, .not, .ifFalse, .sub1, .endIf]

end Word

namespace BitOrder

/-- Powers of two from `2 ^ w.bits` to `2 ^ 30` go under the value; then each that fits is
subtracted, the largest first. -/
def lowScript (w : Width) : Script :=
  ops [.toAlt] ++ num (1 <<< w.bits : Nat) ++ times (30 - w.bits) (ops [.dup, .dup, .add]) ++
  ops [.fromAlt] ++
  times (31 - w.bits) (ops [.swap, .dup2, .greaterEq, .ifTrue, .sub, .orElse, .drop, .endIf])

/-- Moves the bits from `shift + k - 1` down to `shift` of the value on top, lowered by `shift`,
into the item below it. -/
def highBits (shift : Nat) : Nat → Script
  | 0 => []
  | k + 1 =>
    ops [.dup] ++ num (1 <<< (shift + k) : Nat) ++ ops [.greaterEq, .ifTrue] ++
    num (1 <<< (shift + k) : Nat) ++ ops [.sub, .swap] ++ num (1 <<< k : Nat) ++
    ops [.add, .swap, .endIf] ++
    highBits shift k

def highScript (w : Width) : Script :=
  bytes [] ++ ops [.swap] ++ highBits (31 - w.bits) w.bits ++ ops [.drop]

def script (order : BitOrder) (w : Width) : Script :=
  if w.bits = 31 then []
  else
    match order with
    | .low => lowScript w
    | .high => highScript w

end BitOrder

namespace Extraction

def reverseScript : Nat → Script
  | 0 => []
  | k + 1 => reverseScript k ++ if k = 0 then ops [.swap] else num (k + 1) ++ ops [.roll]

/-- Takes units and tail from the bottom of the stack and a hash from its top, and leaves the
values of the words, the first deepest. -/
def script (n : WordCount) : Script :=
  times (n.count + 1) fetch ++
  times n.count (num n.count ++ ops [.roll] ++ Word.script) ++
  times (n.count - 1) (ops [.cat]) ++
  ops [.swap, .cat, .equalVerify] ++
  times n.count (ops [.fromAlt] ++ Word.canonicalScript) ++
  reverseScript (n.count - 1)

def queriesScript (w : Width) (order : BitOrder) : Script :=
  script .five ++ times 5 (order.script w ++ ops [.toAlt]) ++ times 5 (ops [.fromAlt])

end Extraction

end HintScript
