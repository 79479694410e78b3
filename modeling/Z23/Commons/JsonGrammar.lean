import Z23.Commons.ZJsonp

/-!
The grammar of RFC 8259 over the positions of a text: a symbol derives the bytes from one position
up to another, together with the tokens that they are and a bound on their nesting.
-/

namespace Z23.Commons

open Z23.Lib.Spans

/-- `ws`. -/
abbrev Ws : List UInt8 → Nat → Nat → Prop := Run isWs

/-- A structural character at `k`, with the whitespace before and after it. -/
structure Structural (c : UInt8) (text : List UInt8) (i k j : Nat) : Prop where
  before : Ws text i k
  symbol : text[k]? = some c
  after : Ws text (k + 1) j

-- Numbers

/-- `1*DIGIT`. -/
structure Digits (text : List UInt8) (i j : Nat) : Prop where
  first : InRange 0x30 0x39 text i
  rest : Run numberDigit text (i + 1) j

/-- `[ minus ]`. -/
inductive Minus (text : List UInt8) (i : Nat) : Nat → Prop where
  | absent : Minus text i i
  | present (symbol : text[i]? = some Ascii.minus) : Minus text i (i + 1)

/-- `int`. -/
inductive IntPart (text : List UInt8) (i : Nat) : Nat → Prop where
  | zero (symbol : text[i]? = some Ascii.zero) : IntPart text i (i + 1)
  | digits {j : Nat} (first : InRange 0x31 0x39 text i) (rest : Run numberDigit text (i + 1) j)
      : IntPart text i j

/-- `[ frac ]`. -/
inductive Frac (text : List UInt8) (i : Nat) : Nat → Prop where
  | absent : Frac text i i
  | present {j : Nat} (symbol : text[i]? = some Ascii.point) (digits : Digits text (i + 1) j)
      : Frac text i j

/-- `[ minus / plus ]`. -/
inductive Sign (text : List UInt8) (i : Nat) : Nat → Prop where
  | absent : Sign text i i
  | plus (symbol : text[i]? = some Ascii.plus) : Sign text i (i + 1)
  | minus (symbol : text[i]? = some Ascii.minus) : Sign text i (i + 1)

/-- `[ exp ]`. -/
inductive Exponent (text : List UInt8) (i : Nat) : Nat → Prop where
  | absent : Exponent text i i
  | present {k j : Nat} {c : UInt8} (symbol : text[i]? = some c) (letter : isExponent c = true)
      (sign : Sign text (i + 1) k) (digits : Digits text k j) : Exponent text i j

/-- `number`. -/
inductive Number (text : List UInt8) (i j : Nat) : Prop where
  | mk {a b c : Nat} (minus : Minus text i a) (int : IntPart text a b) (frac : Frac text b c)
      (exp : Exponent text c j) : Number text i j

-- Strings

/-- `4HEXDIG`. -/
def HexDigits (text : List UInt8) (i : Nat) : Prop :=
  ∀ k, k < 4 → ∃ c, text[i + k]? = some c ∧ isHex c = true

/-- A byte that may start an `unescaped` character. -/
def Unescaped (c : UInt8) : Prop := 0x20 ≤ c ∧ c ≠ Ascii.quote ∧ c ≠ Ascii.backslash

/-- `*char`: characters in UTF-8, two-letter escapes and code units. -/
inductive Chars (text : List UInt8) : Nat → Nat → Prop where
  | nil (i : Nat) : Chars text i i
  | unescaped {i k j : Nat} {c : UInt8} (symbol : text[i]? = some c) (plain : Unescaped c)
      (char : Utf8Char text i k) (rest : Chars text k j) : Chars text i j
  | escaped {i j : Nat} {e : UInt8} (symbol : text[i]? = some Ascii.backslash)
      (letter : text[i + 1]? = some e) (known : isEscaped e = true)
      (rest : Chars text (i + 2) j) : Chars text i j
  | unicode {i j : Nat} (symbol : text[i]? = some Ascii.backslash)
      (letter : text[i + 1]? = some Ascii.letterU) (digits : HexDigits text (i + 2))
      (rest : Chars text (i + 6) j) : Chars text i j

/-- `string`, with its quotation marks at `i` and at `j`. -/
structure Quoted (text : List UInt8) (i j : Nat) : Prop where
  opening : text[i]? = some Ascii.quote
  chars : Chars text (i + 1) j
  closing : text[j]? = some Ascii.quote

-- Values

/-- `lit` stands at the position. -/
def Literal (lit text : List UInt8) (i : Nat) : Prop := (text.drop i).take lit.length = lit

/-- A value that is no container, and its token. -/
inductive Scalar (text : List UInt8) (i : Nat) : Nat → Event → Prop where
  | true (literal : Literal Ascii.trueText text i) : Scalar text i (i + 4) ⟨.bool, i, 4⟩
  | false (literal : Literal Ascii.falseText text i) : Scalar text i (i + 5) ⟨.bool, i, 5⟩
  | null (literal : Literal Ascii.nullText text i) : Scalar text i (i + 4) ⟨.null, i, 4⟩
  | number {j : Nat} (number : Number text i j) : Scalar text i j ⟨.num, i, j - i⟩
  | string {j : Nat} (quoted : Quoted text i j)
      : Scalar text i (j + 1) ⟨.str, i + 1, j - (i + 1)⟩

inductive Container where
  | array
  | object
deriving DecidableEq, Repr

namespace Container

/-- `begin-array` and `begin-object`. -/
def opening : Container → UInt8
  | array => Ascii.openArray
  | object => Ascii.openObject

/-- `end-array` and `end-object`. -/
def closing : Container → UInt8
  | array => Ascii.closeArray
  | object => Ascii.closeObject

def opened (k : Nat) : Container → Event
  | array => ⟨.arrOpen, k, 0⟩
  | object => ⟨.objOpen, k, 0⟩

def closed (k : Nat) : Container → Event
  | array => ⟨.arrClose, k, 0⟩
  | object => ⟨.objClose, k, 0⟩

end Container

inductive Symbol where
  | value
  /-- `value` in an array, `member` in an object -/
  | item (kind : Container)
  /-- `*( value-separator value )` or `*( value-separator member )` -/
  | items (kind : Container)
deriving DecidableEq, Repr

/-- `Derives text symbol depth i j tokens`: the bytes from `i` up to `j` are an instance of the
symbol whose containers nest at most `depth` deep. -/
inductive Derives (text : List UInt8) : Symbol → Nat → Nat → Nat → List Event → Prop where
  | scalar {depth i j : Nat} {token : Event} (scalar : Scalar text i j token)
      : Derives text .value depth i j [token]
  | empty {kind : Container} {depth i k j l m : Nat}
      (opens : Structural kind.opening text i k j) (closes : Structural kind.closing text j l m)
      : Derives text .value (depth + 1) i m [kind.opened k, kind.closed l]
  | filled {kind : Container} {depth i k j a b l m : Nat} {head tail : List Event}
      (opens : Structural kind.opening text i k j) (item : Derives text (.item kind) depth j a head)
      (items : Derives text (.items kind) depth a b tail)
      (closes : Structural kind.closing text b l m)
      : Derives text .value (depth + 1) i m (kind.opened k :: (head ++ (tail ++ [kind.closed l])))
  | element {depth i j : Nat} {tokens : List Event} (value : Derives text .value depth i j tokens)
      : Derives text (.item .array) depth i j tokens
  | member {depth i j k l m : Nat} {tokens : List Event} (name : Quoted text i j)
      (separator : Structural Ascii.colon text (j + 1) k l)
      (value : Derives text .value depth l m tokens)
      : Derives text (.item .object) depth i m (⟨.key, i + 1, j - (i + 1)⟩ :: tokens)
  | noItems {kind : Container} {depth i : Nat} : Derives text (.items kind) depth i i []
  | moreItems {kind : Container} {depth i k j a b : Nat} {head tail : List Event}
      (separator : Structural Ascii.comma text i k j)
      (item : Derives text (.item kind) depth j a head)
      (items : Derives text (.items kind) depth a b tail)
      : Derives text (.items kind) depth i b (head ++ tail)

/-- `JSON-text`: one value with whitespace around it. -/
def JsonText (depth : Nat) (text : List UInt8) (tokens : List Event) : Prop :=
  ∃ i j, Ws text 0 i ∧ Derives text .value depth i j tokens ∧ Ws text j text.length

-- Balanced tokens

/-- The open containers after a token, or `none` for a close that does not fit. -/
def Event.nest (token : Event) (outer : List Container) : Option (List Container) :=
  match token.kind, outer with
  | .arrOpen, outer => some (.array :: outer)
  | .objOpen, outer => some (.object :: outer)
  | .arrClose, .array :: outer => some outer
  | .objClose, .object :: outer => some outer
  | .arrClose, _ => none
  | .objClose, _ => none
  | _, outer => some outer

/-- The open containers after the tokens. -/
def nesting : List Event → List Container → Option (List Container)
  | [], outer => some outer
  | token :: rest, outer => (token.nest outer).bind (nesting rest)

/-- Every close fits the innermost open container, and nothing is left open. -/
def Balanced (tokens : List Event) : Prop := nesting tokens [] = some []

variable {text : List UInt8} {i j : Nat}

theorem nesting_append (head tail : List Event) (outer : List Container)
    : nesting (head ++ tail) outer = (nesting head outer).bind (nesting tail) := by
  induction head generalizing outer with
  | nil => rfl
  | cons token rest ih =>
    rw [List.cons_append, nesting, nesting, Option.bind_assoc]
    congr 1
    funext inner
    exact ih inner

theorem Scalar.nest {token : Event} (scalar : Scalar text i j token) (outer : List Container)
    : token.nest outer = some outer := by
  cases scalar <;> rfl

theorem Container.nest_opened (kind : Container) (k : Nat) (outer : List Container)
    : (kind.opened k).nest outer = some (kind :: outer) := by
  cases kind <;> rfl

theorem Container.nest_closed (kind : Container) (k : Nat) (outer : List Container)
    : (kind.closed k).nest (kind :: outer) = some outer := by
  cases kind <;> rfl

theorem Derives.nesting {symbol : Symbol} {depth : Nat} {tokens : List Event}
    (derives : Derives text symbol depth i j tokens) (outer : List Container)
    : nesting tokens outer = some outer := by
  induction derives generalizing outer with
  | scalar scalar =>
    rw [Commons.nesting, scalar.nest outer]
    rfl
  | empty opens closes =>
    rw [Commons.nesting, Container.nest_opened, Option.bind_some, Commons.nesting,
      Container.nest_closed]
    rfl
  | filled opens item items closes itemIh itemsIh =>
    rw [Commons.nesting, Container.nest_opened, Option.bind_some, nesting_append, itemIh,
      Option.bind_some, nesting_append, itemsIh, Option.bind_some, Commons.nesting,
      Container.nest_closed]
    rfl
  | element value ih => exact ih outer
  | member name separator value ih => exact ih outer
  | noItems => rfl
  | moreItems separator item items itemIh itemsIh =>
    rw [nesting_append, itemIh, Option.bind_some, itemsIh]

theorem JsonText.balanced {depth : Nat} {tokens : List Event}
    (json : JsonText depth text tokens) : Balanced tokens := by
  obtain ⟨i, j, before, derives, after⟩ := json
  exact derives.nesting []

end Z23.Commons
