import Z23.Lib.Bytes
import Z23.Lib.Failing

/-!
Scripts as bytes: opcodes, the reader of one operation, numbers on the stack, and the encodings of
signatures and keys with the verification flags that ask for them.
-/

namespace Z23.Script

open Z23.Lib.Bytes
open Z23.Lib.Failing

-- Opcodes

abbrev Bytes := List UInt8

/-- The named values of `enum opcodetype` that the interpreter looks at by name. -/
def op0 : UInt8 := 0x00
def opPushdata1 : UInt8 := 0x4c
def opPushdata2 : UInt8 := 0x4d
def opPushdata4 : UInt8 := 0x4e
def op1Negate : UInt8 := 0x4f
def op1 : UInt8 := 0x51
def op16 : UInt8 := 0x60
def opIf : UInt8 := 0x63
def opNotif : UInt8 := 0x64
def opEndif : UInt8 := 0x68
def op2dup : UInt8 := 0x6e
def opDup : UInt8 := 0x76
def opRoll : UInt8 := 0x7a
def opEqual : UInt8 := 0x87
def opEqualverify : UInt8 := 0x88
def op1add : UInt8 := 0x8b
def op1sub : UInt8 := 0x8c
def opNegate : UInt8 := 0x8f
def opAbs : UInt8 := 0x90
def opNot : UInt8 := 0x91
def op0notequal : UInt8 := 0x92
def opAdd : UInt8 := 0x93
def opSub : UInt8 := 0x94
def opBooland : UInt8 := 0x9a
def opBoolor : UInt8 := 0x9b
def opNumequal : UInt8 := 0x9c
def opNumequalverify : UInt8 := 0x9d
def opNumnotequal : UInt8 := 0x9e
def opLessthan : UInt8 := 0x9f
def opGreaterthan : UInt8 := 0xa0
def opLessthanorequal : UInt8 := 0xa1
def opGreaterthanorequal : UInt8 := 0xa2
def opMin : UInt8 := 0xa3
def opMax : UInt8 := 0xa4
def opRipemd160 : UInt8 := 0xa6
def opSha1 : UInt8 := 0xa7
def opSha256 : UInt8 := 0xa8
def opHash160 : UInt8 := 0xa9
def opChecksigverify : UInt8 := 0xad
def opCheckmultisigverify : UInt8 := 0xaf
def opCheckdatasigverify : UInt8 := 0xbb

def maxScriptElementSize : Nat := 520

def maxScriptSize : Nat := 10000

def maxStackItems : Nat := 1000

/-- `ScriptError` without the success and count values; `aborted` stands for a failed assertion. -/
inductive ScriptError where
  | unknownError
  | evalFalse
  | opReturn
  | scriptSize
  | pushSize
  | opCount
  | stackSize
  | sigCount
  | pubkeyCount
  | verify
  | equalverify
  | checkmultisigverify
  | checksigverify
  | checkdatasigverify
  | numequalverify
  | badOpcode
  | disabledOpcode
  | invalidStackOperation
  | invalidAltstackOperation
  | unbalancedConditional
  | negativeLocktime
  | unsatisfiedLocktime
  | sigHashtype
  | sigDer
  | minimaldata
  | sigPushonly
  | sigHighS
  | sigNulldummy
  | pubkeytype
  | cleanstack
  | sigNullfail
  | discourageUpgradableNops
  | aborted
deriving DecidableEq, Repr

-- Flags

def verifyP2sh : UInt32 := 1
def verifyStrictenc : UInt32 := 2
def verifyLowS : UInt32 := 8
def verifyNulldummy : UInt32 := 16
def verifySigpushonly : UInt32 := 32
def verifyMinimaldata : UInt32 := 64
def verifyDiscourageUpgradableNops : UInt32 := 128
def verifyCleanstack : UInt32 := 256
def verifyChecklocktimeverify : UInt32 := 512
def verifyNullfail : UInt32 := 1024

/-- `(flags & flag) != 0`. -/
def hasFlag (flags flag : UInt32) : Bool := flags &&& flag != 0

-- Reading

/-- The length of the data of a push and the place where it starts. -/
def pushLength (script : Bytes) (op : UInt8) (pc : Nat) : Option (Nat × Nat) :=
  if op < opPushdata1 then some (op.toNat, pc)
  else if op = opPushdata1 then
    if script.length ≤ pc then none else some ((script.getD pc 0).toNat, pc + 1)
  else if op = opPushdata2 then
    if script.length ≤ pc + 1 then none else some (natLE ((script.drop pc).take 2), pc + 2)
  else
    if script.length ≤ pc + 3 then none else some (natLE ((script.drop pc).take 4), pc + 4)

/-- One operation with its data, and the place of the next one. -/
def scriptGetOp (script : Bytes) (pc : Nat) : Option (UInt8 × Bytes × Nat) :=
  if script.length ≤ pc then none
  else
    let op := script.getD pc 0
    if op ≤ opPushdata4 then
      match pushLength script op (pc + 1) with
      | none => none
      | some (nsize, start) =>
        if start + nsize > script.length then none
        else if nsize > maxScriptElementSize then none
        else some (op, (script.drop start).take nsize, start + nsize)
    else some (op, [], pc + 1)

/-- The walk of `script_is_push_only` from a place on; `fuel` is at least what is left. -/
def pushOnlyFrom (script : Bytes) : Nat → Nat → Bool
  | 0, _ => true
  | fuel + 1, i =>
    if script.length ≤ i then true
    else
      let op := script.getD i 0
      if op16 < op then false
      else if op < opPushdata1 then pushOnlyFrom script fuel (i + 1 + op.toNat)
      else if op = opPushdata1 then
        if script.length ≤ i + 1 then false
        else pushOnlyFrom script fuel (i + 2 + (script.getD (i + 1) 0).toNat)
      else if op = opPushdata2 then
        if script.length ≤ i + 2 then false
        else pushOnlyFrom script fuel (i + 3 + natLE ((script.drop (i + 1)).take 2))
      else if op = opPushdata4 then
        if script.length ≤ i + 4 then false
        else
          -- the sum is taken in 32 bits
          let adv := (5 + natLE ((script.drop (i + 1)).take 4)) % 2 ^ 32
          if adv = 0 then false else pushOnlyFrom script fuel (i + adv)
      else pushOnlyFrom script fuel (i + 1)

def scriptIsPushOnly (script : Bytes) : Bool := pushOnlyFrom script script.length 0

def scriptIsP2sh (script : Bytes) : Bool :=
  script.length == 23 && script.getD 0 0 == opHash160 && script.getD 1 0 == 0x14
    && script.getD 22 0 == opEqual

-- Numbers and truth

/-- The last byte adds only a sign that the byte before has room for. -/
def nonMinimal (data : Bytes) : Bool :=
  data.length > 0 && (data.getD (data.length - 1) 0 &&& 0x7f == 0)
    && (data.length ≤ 1 || data.getD (data.length - 2) 0 &&& 0x80 == 0)

/-- A little-endian magnitude whose top bit is the sign. -/
def signMagnitude (data : Bytes) : Int :=
  if data.getD (data.length - 1) 0 &&& 0x80 != 0 then
    ((0x80 * 256 ^ (data.length - 1) : Nat) : Int) - natLE data
  else natLE data

def scriptNumFromBytes (data : Bytes) (requireMinimal : Bool) (maxSize : Nat)
    : Except ScriptError Int := do
  require (data.length ≤ maxSize) .unknownError
  require (!(requireMinimal && nonMinimal data)) .unknownError
  return signMagnitude data

/-- The bytes of a magnitude; `fuel` is at least their number. -/
def magnitudeBytes : Nat → Nat → Bytes
  | 0, _ => []
  | fuel + 1, absval =>
    if absval = 0 then [] else UInt8.ofNat absval :: magnitudeBytes fuel (absval / 256)

/-- A number in its shortest form; more than eight bytes are not written. -/
def scriptNumSerialize (value : Int) : Bytes :=
  let bytes := magnitudeBytes 8 value.natAbs
  let top := bytes.getD (bytes.length - 1) 0
  if value = 0 then []
  else if top &&& 0x80 != 0 then
    if bytes.length + 1 > 8 then [] else bytes ++ [if value < 0 then 0x80 else 0]
  else if value < 0 then bytes.dropLast ++ [top ||| 0x80]
  else bytes

/-- The number clamped to 32 bits. -/
def scriptNumGetInt (value : Int) : Int := max (-2147483648) (min value 2147483647)

/-- Some byte is not zero, a last byte with only the sign bit apart. -/
def castToBool : Bytes → Bool
  | [] => false
  | [byte] => byte != 0 && byte != 0x80
  | byte :: rest => byte != 0 || castToBool rest

def checkMinimalPush (data : Bytes) (opcode : UInt8) : Bool :=
  if data.length = 0 then opcode == op0
  else if data.length = 1 ∧ 1 ≤ data.getD 0 0 ∧ data.getD 0 0 ≤ 16 then
    opcode == op1 + (data.getD 0 0 - 1)
  else if data.length = 1 ∧ data.getD 0 0 = 0x81 then opcode == op1Negate
  else if data.length ≤ 75 then opcode == UInt8.ofNat data.length
  else if data.length ≤ 255 then opcode == opPushdata1
  else if data.length ≤ 65535 then opcode == opPushdata2
  else true

-- Encodings

def isValidSignatureDerHeader (sig : Bytes) : Bool :=
  8 ≤ sig.length && sig.length ≤ 72 && sig.getD 0 0 == 0x30
    && (sig.getD 1 0).toNat == sig.length - 2

/-- The place of the tag of S when the checks of R pass. -/
def signatureRIntegerSOffset (sig : Bytes) : Option Nat :=
  let lenR := (sig.getD 3 0).toNat
  if sig.getD 2 0 ≠ 0x02 then none
  else if lenR = 0 then none
  else if sig.getD 4 0 &&& 0x80 ≠ 0 then none
  else if lenR > sig.length - 7 then none
  else if lenR > 1 ∧ sig.getD 4 0 = 0 ∧ sig.getD 5 0 &&& 0x80 = 0 then none
  else some (lenR + 4)

def isValidSignatureEncoding (sig : Bytes) : Bool :=
  isValidSignatureDerHeader sig &&
    match signatureRIntegerSOffset sig with
    | none => false
    | some startS =>
      let lenS := (sig.getD (startS + 1) 0).toNat
      if sig.getD startS 0 ≠ 0x02 then false
      else if lenS = 0 then false
      else if sig.getD (startS + 2) 0 &&& 0x80 ≠ 0 then false
      else if startS + lenS + 2 ≠ sig.length then false
      else if lenS > 1 ∧ sig.getD (startS + 2) 0 = 0 ∧ sig.getD (startS + 3) 0 &&& 0x80 = 0 then
        false
      else true

/-- The last byte of a signature names what it signs. -/
def sighashIsDefined (hashType : UInt8) : Bool :=
  let base := hashType &&& 0x7f
  1 ≤ base && base ≤ 3

/-- The library's check that S is in the lower half of the order is a parameter. -/
def checkRawSignatureEncoding (checkLowS : Bytes → Bool) (sig : Bytes) (flags : UInt32)
    : Except ScriptError Unit := do
  require (isValidSignatureEncoding sig) .sigDer
  require (!(hasFlag flags verifyLowS && !checkLowS sig)) .sigHighS

def checkDataSignatureEncoding (checkLowS : Bytes → Bool) (sig : Bytes) (flags : UInt32)
    : Except ScriptError Unit :=
  if sig.length = 0 then .ok () else checkRawSignatureEncoding checkLowS sig flags

def checkTransactionSignatureEncoding (checkLowS : Bytes → Bool) (sig : Bytes) (flags : UInt32)
    : Except ScriptError Unit :=
  if sig.length = 0 then .ok ()
  else do
    checkRawSignatureEncoding checkLowS (sig.take (sig.length - 1)) flags
    require (!(hasFlag flags verifyStrictenc
      && !sighashIsDefined (sig.getD (sig.length - 1) 0))) .sigHashtype

def isStrictPubkey (pubkey : Bytes) : Bool :=
  if pubkey.length = 33 then pubkey.getD 0 0 == 0x02 || pubkey.getD 0 0 == 0x03
  else pubkey.length == 65 && pubkey.getD 0 0 == 0x04

def checkPubkeyEncoding (pubkey : Bytes) (flags : UInt32) : Except ScriptError Unit :=
  require (!(hasFlag flags verifyStrictenc && !isStrictPubkey pubkey)) .pubkeytype

end Z23.Script
