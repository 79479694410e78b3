import Z23.Commons.ZUtf8

/-!
The bounded JSON pull parser. One call reads one event from the text; what the parser knows about
the open containers is four words with a bit for every level.
-/

namespace Z23.Commons

open Z23.Lib.Spans

def zjrpMaxDepth : Nat := 32

inductive EventKind where
  | objOpen
  | objClose
  | arrOpen
  | arrClose
  | key
  | str
  | num
  | bool
  | null
deriving DecidableEq, Repr

/-- A slice of the text; an open or a close has the length zero. -/
structure Event where
  kind : EventKind
  off : Nat
  len : Nat
deriving DecidableEq, Repr

inductive Outcome where
  | ok (event : Event)
  | done
  | syntaxError
  | depthError
deriving DecidableEq, Repr

structure Parser where
  text : List UInt8
  pos : Nat
  depth : Nat
  isArray : BitVec 32
  expectKey : BitVec 32
  first : BitVec 32
  afterComma : BitVec 32
  topDone : Bool
  failed : Bool
deriving DecidableEq, Repr

def setBit (flags : BitVec 32) (lvl : Nat) : BitVec 32 := flags ||| (1#32 <<< lvl)

def clearBit (flags : BitVec 32) (lvl : Nat) : BitVec 32 := flags &&& ~~~(1#32 <<< lvl)

namespace Ascii

def quote : UInt8 := 0x22

def backslash : UInt8 := 0x5C

def comma : UInt8 := 0x2C

def colon : UInt8 := 0x3A

def openArray : UInt8 := 0x5B

def closeArray : UInt8 := 0x5D

def openObject : UInt8 := 0x7B

def closeObject : UInt8 := 0x7D

def minus : UInt8 := 0x2D

def plus : UInt8 := 0x2B

def point : UInt8 := 0x2E

def zero : UInt8 := 0x30

def letterU : UInt8 := 0x75

def trueText : List UInt8 := [0x74, 0x72, 0x75, 0x65]

def falseText : List UInt8 := [0x66, 0x61, 0x6C, 0x73, 0x65]

def nullText : List UInt8 := [0x6E, 0x75, 0x6C, 0x6C]

end Ascii

def isWs (c : UInt8) : Bool := c == 0x20 || c == 0x09 || c == 0x0A || c == 0x0D

def numberDigit (c : UInt8) : Bool := decide (0x30 ≤ c) && decide (c ≤ 0x39)

def isHex (h : UInt8) : Bool :=
  numberDigit h || (decide (0x61 ≤ h) && decide (h ≤ 0x66)) ||
    (decide (0x41 ≤ h) && decide (h ≤ 0x46))

/-- The letters that may follow a backslash, apart from the `u` of a code unit. -/
def isEscaped (e : UInt8) : Bool := [0x22, 0x5C, 0x2F, 0x62, 0x66, 0x6E, 0x72, 0x74].contains e

def isExponent (c : UInt8) : Bool := c == 0x65 || c == 0x45

-- Strings, numbers and literals

/-- The position after the escape at `i`, or that of the byte that is wrong. -/
def scanUnicodeEscape (text : List UInt8) (i : Nat) : Except Nat Nat :=
  if text.length ≤ i + 5 then .error text.length
  else
    match ((text.drop (i + 2)).take 4).findIdx? (fun h => !isHex h) with
    | some k => .error (i + 2 + k)
    | none => .ok (i + 6)

def scanEscape (text : List UInt8) (i : Nat) : Except Nat Nat :=
  match text[i + 1]? with
  | none => .error text.length
  | some e =>
    if e = Ascii.letterU then scanUnicodeEscape text i
    else if isEscaped e then .ok (i + 2)
    else .error (i + 1)

/-- The position of the quote that ends a string, reading from `i`. A turn of the loop moves on by
a byte at least, so that the fuel may be the bytes that are left. -/
def scanBody (text : List UInt8) : Nat → Nat → Except Nat Nat
  | 0, _ => .error text.length
  | fuel + 1, i =>
    match text[i]? with
    | none => .error text.length
    | some c =>
      if c = Ascii.quote then .ok i
      else if c = Ascii.backslash then (scanEscape text i).bind (scanBody text fuel)
      else if c < 0x20 then .error i
      else scanBody text fuel (i + 1)

/-- Every character from `i` up to `stop` decodes. -/
def stringPayloadValid (text : List UInt8) (stop : Nat) : Nat → Nat → Except Nat Unit
  | 0, i => .error i
  | fuel + 1, i =>
    if stop ≤ i then .ok ()
    else
      match decodeN ((text.drop i).take (stop - i)) with
      | .error _ => .error i
      | .ok (_, consumed) => stringPayloadValid text stop fuel (i + consumed)

/-- The position of the closing quote of the string whose bytes start at `start`. -/
def stringEnd (text : List UInt8) (start : Nat) : Except Nat Nat :=
  (scanBody text (text.length + 1 - start) start).bind fun stop =>
    (stringPayloadValid text stop (stop + 1 - start) start).bind fun _ => .ok stop

def numberInteger (text : List UInt8) (i : Nat) : Except Nat Nat :=
  let i := if text[i]? = some Ascii.minus then i + 1 else i
  match text[i]? with
  | none => .error i
  | some c =>
    if c = Ascii.zero then .ok (i + 1)
    else if 0x31 ≤ c ∧ c ≤ 0x39 then .ok (skip numberDigit text i)
    else .error i

/-- One digit at least, then all that follow. -/
def numberDigits (text : List UInt8) (i : Nat) : Except Nat Nat :=
  match text[i]? with
  | none => .error i
  | some c => if numberDigit c then .ok (skip numberDigit text i) else .error i

def numberFraction (text : List UInt8) (i : Nat) : Except Nat Nat :=
  if text[i]? = some Ascii.point then numberDigits text (i + 1) else .ok i

def numberExponent (text : List UInt8) (i : Nat) : Except Nat Nat :=
  if text[i]?.any isExponent then
    numberDigits text
      (if text[i + 1]? = some Ascii.plus ∨ text[i + 1]? = some Ascii.minus then i + 2 else i + 1)
  else .ok i

def numberEnd (text : List UInt8) (i : Nat) : Except Nat Nat :=
  ((numberInteger text i).bind (numberFraction text)).bind (numberExponent text)

namespace Parser

def init (text : List UInt8) : Parser where
  text := text
  pos := 0
  depth := 0
  isArray := 0
  expectKey := 0
  first := 0
  afterComma := 0
  topDone := false
  failed := false

def skipWs (p : Parser) : Parser := { p with pos := skip isWs p.text p.pos }

/-- The byte under the parser, unless it is at the end. -/
def here (p : Parser) : Option UInt8 := p.text[p.pos]?

/-- The payload's offset and length, for a string whose opening quote is under the parser. -/
def scanString (p : Parser) : Parser × Option (Nat × Nat) :=
  match stringEnd p.text (p.pos + 1) with
  | .error wrong => ({ p with pos := wrong }, none)
  | .ok stop => ({ p with pos := stop + 1 }, some (p.pos + 1, stop - (p.pos + 1)))

/-- The length of the number, which is zero for none. -/
def scanNumber (p : Parser) : Parser × Nat :=
  match numberEnd p.text p.pos with
  | .error wrong => ({ p with pos := wrong }, 0)
  | .ok stop => ({ p with pos := stop }, stop - p.pos)

/-- How many bytes of the two agree. -/
def agreeing : List UInt8 → List UInt8 → Nat
  | a :: as, b :: bs => if a = b then agreeing as bs + 1 else 0
  | _, _ => 0

def matchLiteral (p : Parser) (lit : List UInt8) : Parser × Bool :=
  if (p.text.drop p.pos).take lit.length = lit then ({ p with pos := p.pos + lit.length }, true)
  else ({ p with pos := p.pos + agreeing (p.text.drop p.pos) lit }, false)

-- Structure

/-- A comma and the whitespace after it. -/
def takeComma (p : Parser) (lvl : Nat) : Option Parser :=
  if p.here = some Ascii.comma then
    some (skipWs { p with pos := p.pos + 1, afterComma := setBit p.afterComma lvl })
  else none

/-- What has to stand before a value: nothing at the top, a comma in an array but for its first
element, a colon in an object. -/
def valuePreamble (p : Parser) : Option Parser :=
  if p.depth = 0 then if p.topDone then none else some p
  else
    let lvl := p.depth - 1
    if p.isArray.getLsbD lvl then
      if p.first.getLsbD lvl then some p else takeComma p lvl
    else if p.expectKey.getLsbD lvl then none
    else if p.here = some Ascii.colon then some (skipWs { p with pos := p.pos + 1 })
    else none

def valueDone (p : Parser) : Parser :=
  if p.depth = 0 then { p with topDone := true }
  else
    let lvl := p.depth - 1
    { p with
      first := clearBit p.first lvl
      afterComma := clearBit p.afterComma lvl
      expectKey := setBit p.expectKey lvl }

def syntaxFailure (p : Parser) : Parser × Outcome := ({ p with failed := true }, .syntaxError)

/-- The byte under the parser is `c`, one of the two closing brackets. -/
def closeContainer (p : Parser) (c : UInt8) : Parser × Outcome :=
  let lvl := p.depth - 1
  let isArr := p.isArray.getLsbD lvl
  if isArr ≠ decide (c = Ascii.closeArray) then syntaxFailure p
  else if p.afterComma.getLsbD lvl then syntaxFailure p
  else if !isArr && !p.expectKey.getLsbD lvl then syntaxFailure p
  else
    (valueDone { p with pos := p.pos + 1, depth := p.depth - 1 },
      .ok ⟨if isArr then .arrClose else .objClose, p.pos, 0⟩)

def readKeyString (p : Parser) (lvl : Nat) : Parser × Outcome :=
  if p.here = some Ascii.quote then
    match p.scanString with
    | (p, none) => syntaxFailure p
    | (p, some (off, len)) =>
      ({ p with expectKey := clearBit p.expectKey lvl }, .ok ⟨.key, off, len⟩)
  else syntaxFailure p

def readKey (p : Parser) (lvl : Nat) : Parser × Outcome :=
  if p.first.getLsbD lvl then readKeyString p lvl
  else
    match takeComma p lvl with
    | none => syntaxFailure p
    | some p => readKeyString p lvl

def openContainer (p : Parser) (c : UInt8) : Parser × Outcome :=
  if p.depth = zjrpMaxDepth then (p, .depthError)
  else
    let lvl := p.depth
    let p' : Parser :=
      if c = Ascii.openArray then
        { p with isArray := setBit p.isArray lvl, expectKey := clearBit p.expectKey lvl }
      else { p with isArray := clearBit p.isArray lvl, expectKey := setBit p.expectKey lvl }
    ({ p' with
        depth := p.depth + 1
        first := setBit p.first lvl
        afterComma := clearBit p.afterComma lvl
        pos := p.pos + 1 },
      .ok ⟨if c = Ascii.openArray then .arrOpen else .objOpen, p.pos, 0⟩)

def readLiteral (p : Parser) (lit : List UInt8) (kind : EventKind) : Parser × Outcome :=
  match p.matchLiteral lit with
  | (q, false) => syntaxFailure q
  | (q, true) => (valueDone q, .ok ⟨kind, p.pos, lit.length⟩)

def readString (p : Parser) : Parser × Outcome :=
  match p.scanString with
  | (q, none) => syntaxFailure q
  | (q, some (off, len)) => (valueDone q, .ok ⟨.str, off, len⟩)

def readNumber (p : Parser) : Parser × Outcome :=
  match p.scanNumber with
  | (q, 0) => syntaxFailure q
  | (q, n + 1) => (valueDone q, .ok ⟨.num, p.pos, n + 1⟩)

/-- The byte under the parser is `c`. -/
def readValue (p : Parser) (c : UInt8) : Parser × Outcome :=
  if c = Ascii.openObject ∨ c = Ascii.openArray then openContainer p c
  else if c = Ascii.quote then readString p
  else if c = 0x74 then readLiteral p Ascii.trueText .bool
  else if c = 0x66 then readLiteral p Ascii.falseText .bool
  else if c = 0x6E then readLiteral p Ascii.nullText .null
  else readNumber p

/-- A value after what has to stand before it. -/
def nextValue (p : Parser) : Parser × Outcome :=
  match valuePreamble p with
  | none => syntaxFailure p
  | some p =>
    match p.here with
    | none => syntaxFailure p
    | some c => readValue p c

/-- What stands under the parser inside a container, when it is no closing bracket. -/
def nextItem (p : Parser) : Parser × Outcome :=
  if 0 < p.depth ∧ p.isArray.getLsbD (p.depth - 1) = false ∧
      p.expectKey.getLsbD (p.depth - 1) = true then readKey p (p.depth - 1)
  else nextValue p

def nextToken (p : Parser) : Parser × Outcome :=
  if p.topDone ∧ p.depth = 0 then
    if p.pos = p.text.length then (p, .done) else syntaxFailure p
  else
    match p.here with
    | none => nextItem p
    | some c =>
      if 0 < p.depth ∧ (c = Ascii.closeObject ∨ c = Ascii.closeArray) then closeContainer p c
      else nextItem p

def next (p : Parser) : Parser × Outcome :=
  if p.failed then (p, .syntaxError) else nextToken (skipWs p)

end Parser

end Z23.Commons
