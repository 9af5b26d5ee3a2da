import HintScript.Bytes

set_option autoImplicit false

namespace HintScript

inductive Opcode where
  | small (k : Fin 17) | negOne
  | pushData1 | pushData2 | pushData4
  | nop | ifTrue | ifFalse | orElse | endIf | verify | abort
  | toAlt | fromAlt
  | drop2 | dup2 | dup3 | over2 | rot2 | swap2 | ifDup | depth | drop | dup | nip | over1
  | pick | roll | rot | swap | tuck
  | cat | size | equal | equalVerify
  | add1 | sub1 | negate | abs | not | notZero | add | sub | boolAnd | boolOr
  | numEqual | numEqualVerify | numNotEqual | less | greater | lessEq | greaterEq
  | min | max | within
  | sha256
  deriving DecidableEq, Repr

namespace Opcode

def name : Opcode → String
  | small k => s!"OP_{k.val}"
  | negOne => "OP_1NEGATE"
  | pushData1 => "OP_PUSHDATA1"
  | pushData2 => "OP_PUSHDATA2"
  | pushData4 => "OP_PUSHDATA4"
  | nop => "OP_NOP"
  | ifTrue => "OP_IF"
  | ifFalse => "OP_NOTIF"
  | orElse => "OP_ELSE"
  | endIf => "OP_ENDIF"
  | verify => "OP_VERIFY"
  | abort => "OP_RETURN"
  | toAlt => "OP_TOALTSTACK"
  | fromAlt => "OP_FROMALTSTACK"
  | drop2 => "OP_2DROP"
  | dup2 => "OP_2DUP"
  | dup3 => "OP_3DUP"
  | over2 => "OP_2OVER"
  | rot2 => "OP_2ROT"
  | swap2 => "OP_2SWAP"
  | ifDup => "OP_IFDUP"
  | depth => "OP_DEPTH"
  | drop => "OP_DROP"
  | dup => "OP_DUP"
  | nip => "OP_NIP"
  | over1 => "OP_OVER"
  | pick => "OP_PICK"
  | roll => "OP_ROLL"
  | rot => "OP_ROT"
  | swap => "OP_SWAP"
  | tuck => "OP_TUCK"
  | cat => "OP_CAT"
  | size => "OP_SIZE"
  | equal => "OP_EQUAL"
  | equalVerify => "OP_EQUALVERIFY"
  | add1 => "OP_1ADD"
  | sub1 => "OP_1SUB"
  | negate => "OP_NEGATE"
  | abs => "OP_ABS"
  | not => "OP_NOT"
  | notZero => "OP_0NOTEQUAL"
  | add => "OP_ADD"
  | sub => "OP_SUB"
  | boolAnd => "OP_BOOLAND"
  | boolOr => "OP_BOOLOR"
  | numEqual => "OP_NUMEQUAL"
  | numEqualVerify => "OP_NUMEQUALVERIFY"
  | numNotEqual => "OP_NUMNOTEQUAL"
  | less => "OP_LESSTHAN"
  | greater => "OP_GREATERTHAN"
  | lessEq => "OP_LESSTHANOREQUAL"
  | greaterEq => "OP_GREATERTHANOREQUAL"
  | min => "OP_MIN"
  | max => "OP_MAX"
  | within => "OP_WITHIN"
  | sha256 => "OP_SHA256"

def code : Opcode → UInt8
  | small k => if k = 0 then 0x00 else UInt8.ofNat (0x50 + k)
  | negOne => 0x4f
  | pushData1 => 0x4c
  | pushData2 => 0x4d
  | pushData4 => 0x4e
  | nop => 0x61
  | ifTrue => 0x63
  | ifFalse => 0x64
  | orElse => 0x67
  | endIf => 0x68
  | verify => 0x69
  | abort => 0x6a
  | toAlt => 0x6b
  | fromAlt => 0x6c
  | drop2 => 0x6d
  | dup2 => 0x6e
  | dup3 => 0x6f
  | over2 => 0x70
  | rot2 => 0x71
  | swap2 => 0x72
  | ifDup => 0x73
  | depth => 0x74
  | drop => 0x75
  | dup => 0x76
  | nip => 0x77
  | over1 => 0x78
  | pick => 0x79
  | roll => 0x7a
  | rot => 0x7b
  | swap => 0x7c
  | tuck => 0x7d
  | cat => 0x7e
  | size => 0x82
  | equal => 0x87
  | equalVerify => 0x88
  | add1 => 0x8b
  | sub1 => 0x8c
  | negate => 0x8f
  | abs => 0x90
  | not => 0x91
  | notZero => 0x92
  | add => 0x93
  | sub => 0x94
  | boolAnd => 0x9a
  | boolOr => 0x9b
  | numEqual => 0x9c
  | numEqualVerify => 0x9d
  | numNotEqual => 0x9e
  | less => 0x9f
  | greater => 0xa0
  | lessEq => 0xa1
  | greaterEq => 0xa2
  | min => 0xa3
  | max => 0xa4
  | within => 0xa5
  | sha256 => 0xa8

def all : List Opcode :=
  (List.finRange 17).map small ++
  [negOne, pushData1, pushData2, pushData4,
    nop, ifTrue, ifFalse, orElse, endIf, verify, abort, toAlt, fromAlt,
    drop2, dup2, dup3, over2, rot2, swap2, ifDup, depth, drop, dup, nip, over1,
    pick, roll, rot, swap, tuck, cat, size, equal, equalVerify,
    add1, sub1, negate, abs, not, notZero, add, sub, boolAnd, boolOr,
    numEqual, numEqualVerify, numNotEqual, less, greater, lessEq, greaterEq,
    min, max, within, sha256]

def ofCode? (c : UInt8) : Option Opcode := all.find? fun op => op.code = c

def ofName? (text : String) : Option Opcode := all.find? fun op => op.name = text

theorem ofCode?_code (op : Opcode) : ofCode? op.code = some op := by
  cases op with
  | small k => revert k; decide +kernel
  | _ => decide +kernel

def pushed? : Opcode → Option Bytes
  | small k => some (if k = 0 then [] else [UInt8.ofNat k])
  | negOne => some [0x81]
  | _ => none

/-- Whether the opcode acts even inside a branch that is not taken. -/
def isConditional : Opcode → Bool
  | ifTrue | ifFalse | orElse | endIf => true
  | _ => false

end Opcode

end HintScript
