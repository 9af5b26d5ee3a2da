import HintScript.Error

/-! Numbers as stack items: little-endian magnitude with the sign in the top bit of the last byte.

`encode` uses the fewest bytes, zero being the empty string; `decode` reads nothing else back.
-/

set_option autoImplicit false

namespace HintScript.Number

/-- Sign and magnitude of `v` in `k` bytes. -/
def pack (k : Nat) (v : Int) : Bytes :=
  Bytes.ofNatLE k (v.natAbs + if v < 0 then 1 <<< (8 * k - 1) else 0)

/-- Fewest bytes that leave a bit for the sign above the magnitude. -/
def width (v : Int) : Nat :=
  if v = 0 then 0 else (v.natAbs.log2 + 9) / 8

def encode (v : Int) : Bytes := pack (width v) v

/-- The last byte carries magnitude, or the byte before it needs its top bit. -/
def isMinimal (data : Bytes) : Bool :=
  match data.reverse with
  | [] => true
  | [top] => top.toNat % 128 != 0
  | top :: next :: _ => top.toNat % 128 != 0 || 128 ≤ next.toNat

/-- The number that sign and magnitude stand for, minimal or not. -/
def value (data : Bytes) : Int :=
  let half := 1 <<< (8 * data.length - 1)
  let n := data.toNatLE
  if half ≤ n then -((n - half : Nat) : Int) else n

def decode (data : Bytes) (limit : Int) : Except NumberError Int :=
  if limit < data.length then .error (.tooLong data.length limit)
  else if isMinimal data then .ok (value data)
  else .error (.notMinimal data)

def sizeLimit : Int := 4

/-- A stack item is true if it has a nonzero byte other than a lone sign bit at the end. -/
def isTrue : Bytes → Bool
  | [] => false
  | [b] => b != 0 && b != 0x80
  | b :: bs => b != 0 || isTrue bs

def ofBool (b : Bool) : Bytes := if b then [1] else []

def flag (b : Bool) : Int := if b then 1 else 0

@[simp] theorem length_pack (k : Nat) (v : Int) : (pack k v).length = k := by
  simp [pack]

@[simp] theorem length_encode (v : Int) : (encode v).length = width v := by
  simp [encode]

@[simp] theorem encode_zero : encode 0 = [] := by
  simp [encode, width, pack, Bytes.ofNatLE]

end HintScript.Number
