import Z23.Lib.Bytes
import Z23.Primitives

/-!
Network addresses: which of them are routable, the group of an address that an attacker pays for,
and the key of a service.
-/

namespace Z23.Net

-- Data model

/-- Models `struct net_addr`; the onion key is there exactly when `has_torv3` is set, so equality
is `net_addr_eq`. -/
structure NetAddr where
  ip : List UInt8
  torv3 : Option Uint256
  size_ip : ip.length = 16
deriving DecidableEq, Repr

structure NetService where
  addr : NetAddr
  port : UInt16
deriving DecidableEq, Repr

structure NetAddress where
  svc : NetService
  nServices : UInt64
  nTime : UInt32
deriving DecidableEq, Repr

/-- The address of a zeroed record. -/
def NetAddr.zero : NetAddr := ⟨List.replicate 16 0, none, List.length_replicate⟩

/-- An onion service, whose 16 address bytes are zero. -/
def NetAddr.ofOnion (key : Uint256) : NetAddr :=
  ⟨List.replicate 16 0, some key, List.length_replicate⟩

namespace NetAddr

def pchIPv4Prefix : List UInt8 := [0, 0, 0, 0, 0, 0, 0, 0, 0, 0, 0xff, 0xff]

def isIpv4 (a : NetAddr) : Bool := a.ip.take 12 = pchIPv4Prefix

def isTor (a : NetAddr) : Bool := a.torv3.isSome

def isValid (a : NetAddr) : Bool :=
  if a.isTor then true
  else if a.ip = List.replicate 16 0 then false
  else if a.ip.take 4 = [0x20, 0x01, 0x0d, 0xb8] then false
  else true

/-- The bytes counted from the last one. -/
def getByte (a : NetAddr) (n : Nat) : UInt8 := a.ip.getD (15 - n) 0

-- Ranges

def isRfc1918 (a : NetAddr) : Bool :=
  a.isIpv4 && (a.getByte 3 = 10 || (a.getByte 3 = 192 && a.getByte 2 = 168)
    || (a.getByte 3 = 172 && a.getByte 2 ≥ 16 && a.getByte 2 ≤ 31))

def isRfc2544 (a : NetAddr) : Bool :=
  a.isIpv4 && a.getByte 3 = 198 && (a.getByte 2 = 18 || a.getByte 2 = 19)

def isRfc3927 (a : NetAddr) : Bool := a.isIpv4 && a.getByte 3 = 169 && a.getByte 2 = 254

def isRfc6598 (a : NetAddr) : Bool :=
  a.isIpv4 && a.getByte 3 = 100 && a.getByte 2 ≥ 64 && a.getByte 2 ≤ 127

def isRfc5737 (a : NetAddr) : Bool :=
  a.isIpv4 && ((a.getByte 3 = 192 && a.getByte 2 = 0 && a.getByte 1 = 2)
    || (a.getByte 3 = 198 && a.getByte 2 = 51 && a.getByte 1 = 100)
    || (a.getByte 3 = 203 && a.getByte 2 = 0 && a.getByte 1 = 113))

def isRfc3964 (a : NetAddr) : Bool := a.getByte 15 = 0x20 && a.getByte 14 = 0x02

def isRfc6052 (a : NetAddr) : Bool :=
  a.ip.take 12 = [0, 0x64, 0xff, 0x9b, 0, 0, 0, 0, 0, 0, 0, 0]

def isRfc4380 (a : NetAddr) : Bool :=
  a.getByte 15 = 0x20 && a.getByte 14 = 0x01 && a.getByte 13 = 0 && a.getByte 12 = 0

def isRfc4862 (a : NetAddr) : Bool := a.ip.take 8 = [0xfe, 0x80, 0, 0, 0, 0, 0, 0]

def isRfc4193 (a : NetAddr) : Bool := a.getByte 15 &&& 0xfe = 0xfc

def isRfc6145 (a : NetAddr) : Bool :=
  a.ip.take 12 = [0, 0, 0, 0, 0, 0, 0, 0, 0xff, 0xff, 0, 0]

def isRfc4843 (a : NetAddr) : Bool :=
  a.getByte 15 = 0x20 && a.getByte 14 = 0x01 && a.getByte 13 = 0x00
    && a.getByte 12 &&& 0xf0 = 0x10

def isLocal (a : NetAddr) : Bool :=
  (a.isIpv4 && (a.getByte 3 = 127 || a.getByte 3 = 0))
    || a.ip = [0, 0, 0, 0, 0, 0, 0, 0, 0, 0, 0, 0, 0, 0, 0, 1]

def isRoutable (a : NetAddr) : Bool :=
  a.isValid && !(a.isRfc1918 || a.isRfc2544 || a.isRfc3927 || a.isRfc4862 || a.isRfc6598
    || a.isRfc5737 || (a.isRfc4193 && !a.isTor) || a.isRfc4843 || a.isLocal)

-- Groups

def groupMax : Nat := 5

def netUnroutable : UInt8 := 0

def netIpv4 : UInt8 := 1

def netIpv6 : UInt8 := 2

def netOnion : UInt8 := 3

/-- The class byte, the first address byte and the number of bits of a group. -/
structure GroupShape where
  nClass : UInt8 := netIpv6
  nStartByte : Nat := 0
  nBits : Nat := 16
deriving DecidableEq, Repr

def groupClassifyTail (a : NetAddr) : GroupShape :=
  if a.isTor then ⟨netOnion, 6, 4⟩
  else if a.getByte 15 = 0x20 ∧ a.getByte 14 = 0x01 ∧ a.getByte 13 = 0x04 ∧ a.getByte 12 = 0x70
  then { nBits := 36 }
  else { nBits := 32 }

/-- `none` is the Teredo case, which the caller writes itself. -/
def groupClassify (a : NetAddr) : Option GroupShape :=
  if a.isLocal then some { nClass := 255, nBits := 0 }
  else if !a.isRoutable then some { nClass := netUnroutable, nBits := 0 }
  else if a.isIpv4 || a.isRfc6145 || a.isRfc6052 then
    some { nClass := netIpv4, nStartByte := 12 }
  else if a.isRfc3964 then some { nClass := netIpv4, nStartByte := 2 }
  else if a.isRfc4380 then none
  else some a.groupClassifyTail

/-- The bytes after the class byte while there is room for them. -/
def groupEmitBytes (a : NetAddr) : Nat → Nat → Nat → List UInt8
  | 0, _, _ => []
  | room + 1, nStartByte, nBits =>
    if nBits ≥ 8 then
      a.getByte (15 - nStartByte) :: a.groupEmitBytes room (nStartByte + 1) (nBits - 8)
    else if nBits > 0 then
      [a.getByte (15 - nStartByte) ||| UInt8.ofNat (2 ^ (8 - nBits) - 1)]
    else []

def groupEmit (a : NetAddr) (shape : GroupShape) : List UInt8 :=
  shape.nClass :: a.groupEmitBytes (groupMax - 1) shape.nStartByte shape.nBits

def getGroup (a : NetAddr) : List UInt8 :=
  match a.groupClassify with
  | none => [netIpv4, a.getByte 3 ^^^ 0xff, a.getByte 2 ^^^ 0xff]
  | some shape => a.groupEmit shape

theorem ofOnion_getByte (key : Uint256) (n : Nat) : (ofOnion key).getByte n = 0 := by
  rw [getByte, ofOnion, List.getD_eq_getElem?_getD, List.getElem?_replicate]
  split <;> rfl

theorem ofOnion_isTor (key : Uint256) : (ofOnion key).isTor = true := rfl

theorem ofOnion_isIpv4 (key : Uint256) : (ofOnion key).isIpv4 = false := by
  simp [isIpv4, ofOnion, pchIPv4Prefix, List.replicate]

theorem ofOnion_isLocal (key : Uint256) : (ofOnion key).isLocal = false := by
  rw [isLocal, ofOnion_isIpv4]
  simp [ofOnion, List.replicate]

theorem ofOnion_isRoutable (key : Uint256) : (ofOnion key).isRoutable = true := by
  have valid : (ofOnion key).isValid = true := rfl
  have linkLocal : (ofOnion key).isRfc4862 = false := by
    simp [isRfc4862, ofOnion, List.replicate]
  rw [isRoutable, valid, linkLocal, ofOnion_isLocal]
  simp [isRfc1918, isRfc2544, isRfc3927, isRfc6598, isRfc5737, isRfc4193, isRfc4843,
    ofOnion_isIpv4, ofOnion_getByte]

theorem ofOnion_getGroup (key : Uint256) : (ofOnion key).getGroup = [netOnion, 0x0f] := by
  have translated : (ofOnion key).isRfc6145 = false ∧ (ofOnion key).isRfc6052 = false := by
    simp [isRfc6145, isRfc6052, ofOnion, List.replicate]
  have shape : (ofOnion key).groupClassify = some ⟨netOnion, 6, 4⟩ := by
    rw [groupClassify, ofOnion_isLocal, ofOnion_isRoutable, ofOnion_isIpv4, translated.1,
      translated.2]
    simp [isRfc3964, isRfc4380, ofOnion_getByte, groupClassifyTail, ofOnion_isTor]
  rw [getGroup, shape]
  simp [groupEmit, groupEmitBytes, groupMax, ofOnion_getByte]

end NetAddr

/-- Models `net_service_get_key`. -/
def NetService.getKey (s : NetService) : List UInt8 :=
  (match s.addr.torv3 with
    | some key => 1 :: key.data
    | none => 0 :: s.addr.ip ++ List.replicate 16 0)
    ++ [(s.port >>> 8).toUInt8, s.port.toUInt8]

end Z23.Net
