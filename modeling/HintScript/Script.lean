import HintScript.Hash
import HintScript.Number

set_option autoImplicit false

namespace HintScript

inductive Item where
  | op (code : Opcode)
  | push (data : Bytes)
  deriving DecidableEq, Repr

abbrev Script := List Item

/-- A small-number opcode is kept as the data it pushes, so that each script that a builder makes has
one written form. -/
def Item.ofOpcode (op : Opcode) : Item :=
  match op.pushed? with
  | some data => .push data
  | none => .op op

def smallNumber? : Bytes → Option UInt8
  | [b] => if 1 ≤ b ∧ b ≤ 16 then some b else none
  | _ => none

def Item.text : Item → String
  | .op o => o.name
  | .push [] => "OP_0"
  | .push data =>
    match smallNumber? data with
    | some k => s!"OP_{k.toNat}"
    | none => s!"<{data.hex}>"

namespace Script

def text (s : Script) : String := String.intercalate " " (s.map Item.text)

/-! ### Pieces -/

def ops (codes : List Opcode) : Script := codes.map .op

def bytes (data : Bytes) : Script := [.push data]

def pushes (items : List Bytes) : Script := items.map .push

def num (v : Int) : Script := [.push (Number.encode v)]

def nums (vs : List Int) : Script := vs.map fun v => .push (Number.encode v)

def hash (h : Hasher) : Script := [Item.ofOpcode h.opcode]

/-- Brings the bottom of the main stack to its top. -/
def fetch : Script := ops [.depth, .sub1, .roll]

def times (n : Nat) (s : Script) : Script := (List.replicate n s).flatten

@[simp] theorem times_zero (s : Script) : times 0 s = [] := rfl

@[simp] theorem times_succ (n : Nat) (s : Script) : times (n + 1) s = s ++ times n s := rfl

end Script

/-! ### Scripts as bytes -/

def directLimit : Nat := 75

def Item.wire : Item → Bytes
  | .op o => [o.code]
  | .push [] => [0x00]
  | .push data =>
    match smallNumber? data with
    | some k => [0x50 + k]
    | none =>
      if data = [0x81] then [Opcode.negOne.code]
      else if data.length ≤ directLimit then UInt8.ofNat data.length :: data
      else if data.length < 0x100 then
        Opcode.pushData1.code :: (Bytes.ofNatLE 1 data.length ++ data)
      else if data.length < 0x10000 then
        Opcode.pushData2.code :: (Bytes.ofNatLE 2 data.length ++ data)
      else Opcode.pushData4.code :: (Bytes.ofNatLE 4 data.length ++ data)

/-- Lengths of pushes have four bytes on the wire at most. -/
def Item.Fits : Item → Prop
  | .op _ => True
  | .push data => data.length < 1 <<< 32

instance : DecidablePred Item.Fits
  | .op _ => inferInstanceAs (Decidable True)
  | .push data => inferInstanceAs (Decidable (data.length < 1 <<< 32))

namespace Script

def wire (s : Script) : Bytes := s.flatMap Item.wire

def size (s : Script) : Nat := s.foldr (fun i n => i.wire.length + n) 0

theorem size_eq_length_wire (s : Script) : s.size = s.wire.length := by
  induction s with
  | nil => rfl
  | cons i s ih =>
    rw [wire, List.flatMap_cons, List.length_append]
    exact congrArg (i.wire.length + ·) ih

def Fits (s : Script) : Prop := ∀ i ∈ s, i.Fits

instance (s : Script) : Decidable s.Fits := inferInstanceAs (Decidable (∀ i ∈ s, i.Fits))

def write (s : Script) : Except Error Bytes :=
  if s.Fits then .ok s.wire else .error .lengthTooLarge

/-- Asking for the size writes the script out, and fails where that does. -/
def measure (s : Script) : Except Error Nat :=
  if s.Fits then .ok s.size else .error .lengthTooLarge

def summary (s : Script) : Except Error String := do
  return s!"Script({s.length} items, {← s.measure} bytes)"

def lengthWidth? (c : UInt8) : Option Nat :=
  if c = Opcode.pushData1.code then some 1
  else if c = Opcode.pushData2.code then some 2
  else if c = Opcode.pushData4.code then some 4
  else none

def readData (size : Nat) (raw : Bytes) : Except ParamError (Item × Bytes) :=
  let data := raw.take size
  if data.length < size then .error (.pushPastEnd size)
  else .ok (.push data, raw.drop size)

/-- The item that starts with code `c`, and what follows it. Of the `total` bytes read, `raw` are
those after the code. -/
def readItem (total : Nat) (c : UInt8) (raw : Bytes) : Except ParamError (Item × Bytes) :=
  if 1 ≤ c.toNat ∧ c.toNat ≤ directLimit then readData c.toNat raw
  else
    match lengthWidth? c with
    | some w =>
      let digits := raw.take w
      if digits.length < w then .error .pushLengthCut
      else readData (Bytes.toNatLE digits) (raw.drop w)
    | none =>
      match Opcode.ofCode? c with
      | some op => .ok (Item.ofOpcode op, raw)
      | none => .error (.unknownOpcode c (total - (raw.length + 1)))

theorem readData_length_le {size : Nat} {raw rest : Bytes} {i : Item}
    (h : readData size raw = .ok (i, rest)) : rest.length ≤ raw.length := by
  simp only [readData] at h
  split at h
  · simp at h
  · injection h with h
    injection h with _ h
    simp [← h]

theorem readItem_length_le {total : Nat} {c : UInt8} {raw rest : Bytes} {i : Item}
    (h : readItem total c raw = .ok (i, rest)) : rest.length ≤ raw.length := by
  simp only [readItem] at h
  split at h
  · exact readData_length_le h
  · split at h
    · split at h
      · simp at h
      · have := readData_length_le h
        simp only [List.length_drop] at this
        omega
    · split at h
      · injection h with h
        injection h with _ h
        simp [← h]
      · simp at h

def readFrom (total : Nat) (acc : Script) : Bytes → Except ParamError Script
  | [] => .ok acc.reverse
  | c :: raw =>
    match h : readItem total c raw with
    | .error e => .error e
    | .ok (i, rest) =>
      have : rest.length < raw.length + 1 := Nat.lt_succ_of_le (readItem_length_le h)
      readFrom total (i :: acc) rest
termination_by raw => raw.length

def ofWire (raw : Bytes) : Except ParamError Script := readFrom raw.length [] raw

end Script

/-! ### Building from nested parts -/

inductive Part where
  | nothing
  | op (code : Opcode)
  | data (bytes : Bytes)
  | truth (value : Bool)
  | num (value : Int)
  | script (items : Script)
  | group (parts : List Part)

mutual

def Part.build : Part → Except Error Script
  | .nothing => .ok []
  | .op o => .ok [Item.ofOpcode o]
  | .data bytes => .ok [.push bytes]
  | .truth _ => .error .truthValue
  | .num value => .ok (Script.num value)
  | .script items => .ok items
  | .group parts => Script.build parts

def Script.build : List Part → Except Error Script
  | [] => .ok []
  | p :: ps => do
    let first ← p.build
    let rest ← Script.build ps
    return first ++ rest

end

end HintScript
