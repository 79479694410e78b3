import Z23.Commons.ZJsonpScan

/-!
The pull parser as a pushdown machine. The machine's mode says which token may come next and its
stack which containers are open; the parser's bit flags follow it call by call.
-/

namespace Z23.Commons

open Z23.Lib.Spans

/-- What the parser waits for between two calls. -/
inductive Mode where
  | top
  | first (kind : Container) (outer : List Container)
  | rest (kind : Container) (outer : List Container)
  | colon (outer : List Container)
  | finished
deriving DecidableEq, Repr

/-- The mode after a whole value inside the open containers. -/
def Mode.after : List Container → Mode
  | [] => .finished
  | kind :: outer => .rest kind outer

/-- The open containers, the innermost first. -/
def Mode.stack : Mode → List Container
  | .top => []
  | .first kind outer => kind :: outer
  | .rest kind outer => kind :: outer
  | .colon outer => .object :: outer
  | .finished => []

/-- An event, and where the machine is after it. -/
structure Move where
  event : Event
  mode : Mode
  pos : Nat
deriving DecidableEq, Repr

namespace Machine

def readString (text : List UInt8) (i : Nat) : Option (Nat × Nat) :=
  match stringEnd text (i + 1) with
  | .error _ => none
  | .ok stop => some (stop - (i + 1), stop + 1)

def readLiteral (text lit : List UInt8) (kind : EventKind) (i : Nat) : Option (Event × Nat) :=
  if (text.drop i).take lit.length = lit then some (⟨kind, i, lit.length⟩, i + lit.length) else none

def readNumber (text : List UInt8) (i : Nat) : Option (Event × Nat) :=
  match numberEnd text i with
  | .error _ => none
  | .ok stop => some (⟨.num, i, stop - i⟩, stop)

/-- The value under the machine when it is no container; `c` is its first byte. -/
def readScalar (text : List UInt8) (i : Nat) (c : UInt8) : Option (Event × Nat) :=
  if c = Ascii.quote then (readString text i).map fun found => (⟨.str, i + 1, found.1⟩, found.2)
  else if c = 0x74 then readLiteral text Ascii.trueText .bool i
  else if c = 0x66 then readLiteral text Ascii.falseText .bool i
  else if c = 0x6E then readLiteral text Ascii.nullText .null i
  else readNumber text i

def openContainer (stack : List Container) (kind : Container) (i : Nat) : Option Move :=
  if stack.length = zjrpMaxDepth then none else some ⟨kind.opened i, .first kind stack, i + 1⟩

def readValue (text : List UInt8) (stack : List Container) (i : Nat) : Option Move :=
  match text[i]? with
  | none => none
  | some c =>
    if c = Ascii.openObject then openContainer stack .object i
    else if c = Ascii.openArray then openContainer stack .array i
    else (readScalar text i c).map fun found => ⟨found.1, .after stack, found.2⟩

def readKey (text : List UInt8) (outer : List Container) (i : Nat) : Option Move :=
  if text[i]? = some Ascii.quote then
    (readString text i).map fun found => ⟨⟨.key, i + 1, found.1⟩, .colon outer, found.2⟩
  else none

def readItem (text : List UInt8) (kind : Container) (outer : List Container) (i : Nat)
    : Option Move :=
  match kind with
  | .array => readValue text (.array :: outer) i
  | .object => readKey text outer i

def close (kind : Container) (outer : List Container) (i : Nat) : Move :=
  ⟨kind.closed i, .after outer, i + 1⟩

/-- One move, from the first byte at or after `i` that is no whitespace. -/
def step (text : List UInt8) (mode : Mode) (i : Nat) : Option Move :=
  let k := skip isWs text i
  match mode with
  | .top => readValue text [] k
  | .first kind outer =>
    if text[k]? = some kind.closing then some (close kind outer k)
    else readItem text kind outer k
  | .rest kind outer =>
    if text[k]? = some kind.closing then some (close kind outer k)
    else if text[k]? = some Ascii.comma then
      readItem text kind outer (skip isWs text (k + 1))
    else none
  | .colon outer =>
    if text[k]? = some Ascii.colon then
      readValue text (.object :: outer) (skip isWs text (k + 1))
    else none
  | .finished => none

end Machine

-- The bits of a level

section Bits

variable (flags : BitVec 32) {lvl other : Nat}

theorem getLsbD_bit (lvl other : Nat)
    : (1#32 <<< lvl).getLsbD other = (decide (other < 32) && decide (other = lvl)) := by
  rw [BitVec.getLsbD_shiftLeft, BitVec.getLsbD_one]
  rcases Nat.lt_trichotomy other lvl with below | rfl | above
  · simp [below, Nat.ne_of_lt below]
  · simp
  · have apart : other ≠ lvl := Nat.ne_of_gt above
    have positive : other - lvl ≠ 0 := Nat.sub_ne_zero_of_lt above
    simp [apart, positive]

theorem setBit_self (small : lvl < 32) : (setBit flags lvl).getLsbD lvl = true := by
  rw [setBit, BitVec.getLsbD_or, getLsbD_bit]
  simp [small]

theorem setBit_other (apart : other ≠ lvl)
    : (setBit flags lvl).getLsbD other = flags.getLsbD other := by
  rw [setBit, BitVec.getLsbD_or, getLsbD_bit]
  simp [apart]

theorem clearBit_self : (clearBit flags lvl).getLsbD lvl = false := by
  rw [clearBit, BitVec.getLsbD_and, BitVec.getLsbD_not, getLsbD_bit]
  by_cases small : lvl < 32
  · simp [small]
  · simp [small]

theorem clearBit_other (apart : other ≠ lvl)
    : (clearBit flags lvl).getLsbD other = flags.getLsbD other := by
  rw [clearBit, BitVec.getLsbD_and, BitVec.getLsbD_not, getLsbD_bit]
  by_cases small : other < 32
  · simp [small, apart]
  · rw [BitVec.getLsbD_of_ge flags other (Nat.le_of_not_lt small), Bool.false_and]

end Bits

-- The parser's flags and the machine's mode

/-- The array bits of the open containers; the outermost one has the level zero. -/
def Kinds (flags : BitVec 32) : List Container → Prop
  | [] => True
  | kind :: outer => flags.getLsbD outer.length = decide (kind = .array) ∧ Kinds flags outer

/-- The parser's open containers, and that it has not failed. -/
structure Opened (p : Parser) (stack : List Container) : Prop where
  depth : p.depth = stack.length
  bound : stack.length ≤ zjrpMaxDepth
  kinds : Kinds p.isArray stack
  live : p.failed = false

/-- The flags of the innermost level. Those of the other levels are written before they are read. -/
def Marks (p : Parser) : Mode → Prop
  | .top => p.topDone = false
  | .first kind outer =>
    (kind = .object → p.expectKey.getLsbD outer.length = true) ∧
      p.first.getLsbD outer.length = true ∧ p.afterComma.getLsbD outer.length = false
  | .rest kind outer =>
    (kind = .object → p.expectKey.getLsbD outer.length = true) ∧
      p.first.getLsbD outer.length = false ∧ p.afterComma.getLsbD outer.length = false
  | .colon outer => p.expectKey.getLsbD outer.length = false
  | .finished => p.topDone = true

structure Tracks (p : Parser) (mode : Mode) : Prop where
  opened : Opened p mode.stack
  marks : Marks p mode

/-- The outcome of a call is the machine's move, or an error where the machine has none. -/
inductive Follows (text : List UInt8) : Parser × Outcome → Option Move → Prop where
  | moves {p : Parser} {event : Event} {mode : Mode} (same : p.text = text)
      (tracks : Tracks p mode) : Follows text (p, .ok event) (some ⟨event, mode, p.pos⟩)
  | syntaxError (p : Parser) : Follows text (p, .syntaxError) none
  | depthError (p : Parser) : Follows text (p, .depthError) none

variable {p : Parser} {stack outer : List Container}

theorem kinds_congr {flags flags' : BitVec 32}
    (same : ∀ k < stack.length, flags'.getLsbD k = flags.getLsbD k) (kinds : Kinds flags stack)
    : Kinds flags' stack := by
  induction stack with
  | nil => exact trivial
  | cons kind outer ih =>
    obtain ⟨innermost, others⟩ := kinds
    refine ⟨?_, ih (fun k below => same k (Nat.lt_succ_of_lt below)) others⟩
    rw [same outer.length (Nat.lt_succ_self _)]
    exact innermost

theorem Opened.level (opened : Opened p (kind :: outer)) : p.depth - 1 = outer.length := by
  rw [opened.depth]
  rfl

theorem Opened.level_lt (opened : Opened p (kind :: outer)) : outer.length < 32 :=
  opened.bound

/-- Whatever moved the parser along, a value that is complete is marked at its level. -/
theorem Opened.valueDone (opened : Opened p stack) : Tracks p.valueDone (.after stack) := by
  cases stack with
  | nil =>
    have top : p.depth = 0 := opened.depth
    unfold Parser.valueDone
    rw [if_pos top]
    exact
      { opened := { depth := top, bound := opened.bound, kinds := trivial, live := opened.live }
        marks := rfl }
  | cons kind outer =>
    have inside : p.depth ≠ 0 := by
      rw [opened.depth]
      exact Nat.succ_ne_zero _
    unfold Parser.valueDone
    rw [if_neg inside]
    simp only [opened.level]
    refine
      { opened :=
          { depth := opened.depth, bound := opened.bound, kinds := opened.kinds,
            live := opened.live }
        marks := ⟨?_, clearBit_self _, clearBit_self _⟩ }
    intro _
    exact setBit_self _ opened.level_lt

theorem text_valueDone : p.valueDone.text = p.text := by
  unfold Parser.valueDone
  split <;> rfl

theorem pos_valueDone : p.valueDone.pos = p.pos := by
  unfold Parser.valueDone
  split <;> rfl

section

variable (opened : Opened p stack)
include opened

theorem Opened.at_pos (pos : Nat)
    : Opened { p with pos := pos } stack :=
  { depth := opened.depth, bound := opened.bound, kinds := opened.kinds, live := opened.live }

theorem Opened.follows_value (event : Event)
    : Follows p.text (p.valueDone, .ok event) (some ⟨event, .after stack, p.pos⟩) := by
  have moved := @Follows.moves p.text _ event _ text_valueDone opened.valueDone
  rw [pos_valueDone] at moved
  exact moved

theorem Opened.follows_value_at (event : Event) (pos : Nat)
    : Follows p.text (Parser.valueDone { p with pos := pos }, .ok event)
      (some ⟨event, .after stack, pos⟩) :=
  (opened.at_pos pos).follows_value event

-- Values

theorem Opened.follows_literal (lit : List UInt8) (kind : EventKind)
    : Follows p.text (p.readLiteral lit kind)
      ((Machine.readLiteral p.text lit kind p.pos).map
        fun found => ⟨found.1, .after stack, found.2⟩) := by
  unfold Parser.readLiteral Parser.matchLiteral Machine.readLiteral
  split
  · rename_i q failed
    split at failed
    · cases failed
    · rename_i differs
      rw [if_neg differs]
      exact .syntaxError _
  · rename_i q matched
    split at matched
    · rename_i same
      cases matched
      rw [if_pos same]
      exact opened.follows_value_at _ _
    · cases matched

theorem Opened.follows_string : Follows p.text p.readString
      (((Machine.readString p.text p.pos).map
        fun found => ((⟨.str, p.pos + 1, found.1⟩ : Event), found.2)).map
          fun found => ⟨found.1, .after stack, found.2⟩) := by
  unfold Parser.readString Parser.scanString Machine.readString
  cases stringEnd p.text (p.pos + 1) with
  | error wrong => exact .syntaxError _
  | ok stop => exact opened.follows_value_at _ _

theorem Opened.follows_number : Follows p.text p.readNumber
      ((Machine.readNumber p.text p.pos).map fun found => ⟨found.1, .after stack, found.2⟩) := by
  unfold Parser.readNumber Parser.scanNumber Machine.readNumber
  cases ended : numberEnd p.text p.pos with
  | error wrong => exact .syntaxError _
  | ok stop =>
    have long := (numberEnd_sound ended).lt
    obtain ⟨n, size⟩ : ∃ n, stop - p.pos = n + 1 := ⟨stop - p.pos - 1, by omega⟩
    simp only [Option.map_some]
    rw [size]
    exact opened.follows_value_at _ _

theorem Opened.follows_open (kind : Container) (c : UInt8) (bracket : c = kind.opening)
    : Follows p.text (p.openContainer c) (Machine.openContainer stack kind p.pos) := by
  unfold Parser.openContainer Machine.openContainer
  rw [opened.depth]
  by_cases full : stack.length = zjrpMaxDepth
  · rw [if_pos full, if_pos full]
    exact .depthError _
  · have small : stack.length < 32 := Nat.lt_of_le_of_ne opened.bound full
    rw [if_neg full, if_neg full]
    have below : ∀ k < stack.length, k ≠ stack.length := fun k inside => Nat.ne_of_lt inside
    cases kind with
    | array =>
      have same : c = Ascii.openArray := bracket
      simp only [if_pos same]
      refine .moves rfl
        { opened := { depth := rfl, bound := small, kinds := ⟨?_, ?_⟩, live := opened.live }
          marks := ⟨?_, setBit_self _ small, clearBit_self _⟩ }
      · exact setBit_self _ small
      · exact kinds_congr (fun k inside => setBit_other _ (below k inside)) opened.kinds
      · intro object
        cases object
    | object =>
      have other : ¬c = Ascii.openArray := by
        rw [bracket]
        decide
      simp only [if_neg other]
      refine .moves rfl
        { opened := { depth := rfl, bound := small, kinds := ⟨?_, ?_⟩, live := opened.live }
          marks := ⟨?_, setBit_self _ small, clearBit_self _⟩ }
      · exact clearBit_self _
      · exact kinds_congr (fun k inside => clearBit_other _ (below k inside)) opened.kinds
      · intro _
        exact setBit_self _ small

theorem Opened.follows_readValue {c : UInt8} (symbol : p.here = some c)
    : Follows p.text (p.readValue c) (Machine.readValue p.text stack p.pos) := by
  have here : p.text[p.pos]? = some c := symbol
  unfold Parser.readValue Machine.readValue
  rw [here]
  simp only
  by_cases object : c = Ascii.openObject
  · rw [if_pos (.inl object), if_pos object]
    exact opened.follows_open .object c object
  · by_cases array : c = Ascii.openArray
    · rw [if_pos (.inr array), if_neg object, if_pos array]
      exact opened.follows_open .array c array
    · rw [if_neg (not_or.mpr ⟨object, array⟩), if_neg object, if_neg array]
      unfold Machine.readScalar
      split
      · exact opened.follows_string
      · split
        · exact opened.follows_literal _ _
        · split
          · exact opened.follows_literal _ _
          · split
            · exact opened.follows_literal _ _
            · exact opened.follows_number

end

theorem Opened.follows_nextValue {q : Parser} (preamble : p.valuePreamble = some q)
    (opened : Opened q stack) (same : q.text = p.text)
    : Follows p.text p.nextValue (Machine.readValue p.text stack q.pos) := by
  unfold Parser.nextValue
  rw [preamble, ← same]
  simp only
  cases symbol : q.here with
  | none =>
    have here : q.text[q.pos]? = none := symbol
    unfold Machine.readValue
    rw [here]
    exact .syntaxError _
  | some c => exact opened.follows_readValue symbol

-- Keys, separators and closes

theorem Opened.follows_readKeyString (opened : Opened p (.object :: outer))
    : Follows p.text (p.readKeyString outer.length) (Machine.readKey p.text outer p.pos) := by
  unfold Parser.readKeyString Machine.readKey
  by_cases quote : p.here = some Ascii.quote
  · have symbol : p.text[p.pos]? = some Ascii.quote := quote
    rw [if_pos quote, if_pos symbol]
    unfold Parser.scanString Machine.readString
    cases stringEnd p.text (p.pos + 1) with
    | error wrong => exact .syntaxError _
    | ok stop =>
      exact .moves rfl
        { opened :=
            { depth := opened.depth, bound := opened.bound, kinds := opened.kinds,
              live := opened.live }
          marks := clearBit_self _ }
  · have other : ¬p.text[p.pos]? = some Ascii.quote := quote
    rw [if_neg quote, if_neg other]
    exact .syntaxError _

theorem Opened.takeComma (opened : Opened p stack) (lvl : Nat) (comma : p.here = some Ascii.comma)
    : ∃ q, p.takeComma lvl = some q ∧ Opened q stack ∧ q.text = p.text ∧
      q.pos = skip isWs p.text (p.pos + 1) := by
  unfold Parser.takeComma
  rw [if_pos comma]
  refine ⟨_, rfl, ?_, rfl, rfl⟩
  exact
    { depth := opened.depth, bound := opened.bound, kinds := opened.kinds, live := opened.live }

variable {kind : Container}

theorem Opened.follows_close (opened : Opened p (kind :: outer))
    (noComma : p.afterComma.getLsbD outer.length = false)
    (key : kind = .object → p.expectKey.getLsbD outer.length = true)
    : Follows p.text (p.closeContainer kind.closing) (some (Machine.close kind outer p.pos)) := by
  have level := opened.level
  have isArr : p.isArray.getLsbD outer.length = decide (kind = .array) := opened.kinds.1
  have bracket : decide (kind = .array) = decide (kind.closing = Ascii.closeArray) := by
    cases kind <;> decide
  have keyed : (!decide (kind = .array) && !p.expectKey.getLsbD outer.length) = false := by
    cases kind with
    | array => rfl
    | object =>
      rw [key rfl]
      rfl
  have popped : Opened { p with pos := p.pos + 1, depth := p.depth - 1 } outer :=
    { depth := level, bound := Nat.le_of_succ_le opened.bound, kinds := opened.kinds.2,
      live := opened.live }
  have event : (⟨if decide (kind = .array) then .arrClose else .objClose, p.pos, 0⟩ : Event) =
      kind.closed p.pos := by
    cases kind <;> rfl
  unfold Parser.closeContainer
  simp only
  rw [level, isArr, if_neg (not_not.mpr bracket), noComma, keyed, if_neg Bool.false_ne_true,
    if_neg Bool.false_ne_true, event]
  rw [level] at popped
  exact popped.follows_value (kind.closed p.pos)

theorem closeContainer_mismatch (c : UInt8)
    (mismatch : p.isArray.getLsbD (p.depth - 1) ≠ decide (c = Ascii.closeArray))
    : p.closeContainer c = p.syntaxFailure := by
  unfold Parser.closeContainer
  simp only
  rw [if_pos mismatch]

theorem closeContainer_pending (c : UInt8) (isObject : p.isArray.getLsbD (p.depth - 1) = false)
    (pending : p.expectKey.getLsbD (p.depth - 1) = false)
    : p.closeContainer c = p.syntaxFailure := by
  unfold Parser.closeContainer
  simp only
  rw [isObject, pending]
  split
  · rfl
  · split
    · rfl
    · exact if_pos rfl

theorem readValue_closing {text : List UInt8} {i : Nat} (kind : Container)
    (symbol : text[i]? = some kind.closing) : Machine.readValue text stack i = none := by
  have number : Machine.readNumber text i = none := by
    unfold Machine.readNumber
    cases ended : numberEnd text i with
    | error wrong => rfl
    | ok stop =>
      obtain ⟨c, first, start⟩ := (numberEnd_sound ended).head
      rw [symbol] at first
      cases first
      exact absurd start (by cases kind <;> decide)
  unfold Machine.readValue
  rw [symbol]
  simp only
  unfold Machine.readScalar
  rw [number]
  cases kind <;> rfl

-- One call

theorem Tracks.skipWs {mode : Mode} (tracks : Tracks p mode) : Tracks p.skipWs mode := by
  refine { opened := tracks.opened.at_pos _, marks := ?_ }
  have marks := tracks.marks
  cases mode <;> exact marks

theorem Opened.depth_pos (opened : Opened p (kind :: outer))
    : 0 < p.depth := by
  rw [opened.depth]
  exact Nat.succ_pos _

theorem Opened.nextToken_close {bracket : Container} (opened : Opened p (kind :: outer))
    (symbol : p.here = some bracket.closing)
    : p.nextToken = p.closeContainer bracket.closing := by
  have inside := opened.depth_pos
  have closes : bracket.closing = Ascii.closeObject ∨ bracket.closing = Ascii.closeArray := by
    cases bracket
    · exact .inr rfl
    · exact .inl rfl
  unfold Parser.nextToken
  rw [if_neg (fun both => Nat.ne_of_gt inside both.2), symbol]
  exact if_pos ⟨inside, closes⟩

theorem Opened.nextToken_item (opened : Opened p (kind :: outer))
    (noBracket : ∀ bracket : Container, p.here ≠ some bracket.closing)
    : p.nextToken = p.nextItem := by
  have inside := opened.depth_pos
  unfold Parser.nextToken
  rw [if_neg (fun both => Nat.ne_of_gt inside both.2)]
  cases symbol : p.here with
  | none => rfl
  | some c =>
    refine if_neg ?_
    rintro ⟨-, rfl | rfl⟩
    · exact noBracket .object symbol
    · exact noBracket .array symbol

theorem Opened.nextItem_array (opened : Opened p (.array :: outer))
    : p.nextItem = p.nextValue := by
  have isArr : p.isArray.getLsbD outer.length = true := opened.kinds.1
  unfold Parser.nextItem
  rw [opened.level, isArr]
  exact if_neg (fun both => Bool.false_ne_true both.2.1.symm)

theorem Opened.nextItem_key (opened : Opened p (.object :: outer))
    (key : p.expectKey.getLsbD outer.length = true)
    : p.nextItem = p.readKey outer.length := by
  have isObject : p.isArray.getLsbD outer.length = false := opened.kinds.1
  unfold Parser.nextItem
  rw [opened.level, isObject, key]
  exact if_pos ⟨opened.depth_pos, rfl, rfl⟩

section

variable (opened : Opened p (kind :: outer))
include opened

theorem Opened.close_other {bracket : Container} (other : bracket ≠ kind)
    : p.closeContainer bracket.closing = p.syntaxFailure := by
  have isArr : p.isArray.getLsbD outer.length = decide (kind = .array) := opened.kinds.1
  apply closeContainer_mismatch
  rw [opened.level, isArr]
  cases kind <;> cases bracket <;> first | exact absurd rfl other | decide

theorem Opened.follows_first (key : kind = .object → p.expectKey.getLsbD outer.length = true)
    (first : p.first.getLsbD outer.length = true)
    : Follows p.text p.nextItem (Machine.readItem p.text kind outer p.pos) := by
  cases kind with
  | array =>
    have isArr : p.isArray.getLsbD outer.length = true := opened.kinds.1
    have preamble : p.valuePreamble = some p := by
      unfold Parser.valuePreamble
      rw [if_neg (Nat.ne_of_gt opened.depth_pos)]
      simp only
      rw [opened.level, isArr, first]
      rfl
    rw [opened.nextItem_array]
    exact opened.follows_nextValue preamble rfl
  | object =>
    rw [opened.nextItem_key (key rfl)]
    unfold Parser.readKey
    rw [first]
    exact opened.follows_readKeyString

theorem Opened.follows_later (key : kind = .object → p.expectKey.getLsbD outer.length = true)
    (later : p.first.getLsbD outer.length = false) (comma : p.here = some Ascii.comma)
    : Follows p.text p.nextItem
      (Machine.readItem p.text kind outer (skip isWs p.text (p.pos + 1))) := by
  obtain ⟨q, taken, openedQ, same, moved⟩ := opened.takeComma outer.length comma
  rw [← moved]
  cases kind with
  | array =>
    have isArr : p.isArray.getLsbD outer.length = true := opened.kinds.1
    have preamble : p.valuePreamble = some q := by
      unfold Parser.valuePreamble
      rw [if_neg (Nat.ne_of_gt opened.depth_pos)]
      simp only
      rw [opened.level, isArr, later]
      exact taken
    rw [opened.nextItem_array]
    exact openedQ.follows_nextValue preamble same
  | object =>
    rw [opened.nextItem_key (key rfl)]
    unfold Parser.readKey
    rw [later, taken, ← same]
    exact openedQ.follows_readKeyString

theorem Opened.later_fails (key : kind = .object → p.expectKey.getLsbD outer.length = true)
    (later : p.first.getLsbD outer.length = false) (noComma : p.here ≠ some Ascii.comma)
    : p.nextItem = p.syntaxFailure := by
  have missing : p.takeComma outer.length = none := by
    unfold Parser.takeComma
    exact if_neg noComma
  cases kind with
  | array =>
    have isArr : p.isArray.getLsbD outer.length = true := opened.kinds.1
    rw [opened.nextItem_array]
    unfold Parser.nextValue Parser.valuePreamble
    rw [if_neg (Nat.ne_of_gt opened.depth_pos)]
    simp only
    rw [opened.level, isArr, later, missing]
    rfl
  | object =>
    rw [opened.nextItem_key (key rfl)]
    unfold Parser.readKey
    rw [later, missing]
    rfl

end

theorem bracket_cases (p : Parser) (kind : Container)
    : p.here = some kind.closing ∨ (∃ bracket, bracket ≠ kind ∧ p.here = some bracket.closing) ∨
      ∀ bracket : Container, p.here ≠ some bracket.closing := by
  by_cases own : p.here = some kind.closing
  · exact .inl own
  · by_cases other : ∃ bracket : Container, p.here = some bracket.closing
    · obtain ⟨bracket, symbol⟩ := other
      refine .inr (.inl ⟨bracket, ?_, symbol⟩)
      rintro rfl
      exact own symbol
    · exact .inr (.inr (not_exists.mp other))

theorem readItem_other {text : List UInt8} {i : Nat} {bracket : Container}
    (symbol : text[i]? = some bracket.closing) : Machine.readItem text kind outer i = none := by
  cases kind with
  | array => exact readValue_closing bracket symbol
  | object =>
    unfold Machine.readItem Machine.readKey
    rw [symbol]
    cases bracket <;> rfl

theorem Tracks.follows_top (tracks : Tracks p .top)
    : Follows p.text p.nextToken (Machine.readValue p.text [] p.pos) := by
  have top : p.depth = 0 := tracks.opened.depth
  have notDone : p.topDone = false := tracks.marks
  have preamble : p.valuePreamble = some p := by
    unfold Parser.valuePreamble
    rw [if_pos top, notDone]
    rfl
  have item : p.nextToken = p.nextValue := by
    have value : p.nextItem = p.nextValue := by
      unfold Parser.nextItem
      exact if_neg (fun both => Nat.ne_of_gt both.1 top)
    unfold Parser.nextToken
    rw [notDone, if_neg (fun both => Bool.false_ne_true both.1), value]
    cases p.here with
    | none => rfl
    | some c => exact if_neg (fun both => Nat.ne_of_gt both.1 top)
  rw [item]
  exact tracks.opened.follows_nextValue preamble rfl

theorem Container.closing_inj {kind' : Container} (same : kind.closing = kind'.closing)
    : kind = kind' := by
  cases kind <;> cases kind' <;> first | rfl | exact absurd same (by decide)

theorem Opened.follows_inside (opened : Opened p (kind :: outer)) {next : Option Move}
    (key : kind = .object → p.expectKey.getLsbD outer.length = true)
    (noComma : p.afterComma.getLsbD outer.length = false)
    (other : ∀ {bracket : Container}, p.here = some bracket.closing → next = none)
    (item : Follows p.text p.nextItem next)
    : Follows p.text p.nextToken
      (if p.here = some kind.closing then some (Machine.close kind outer p.pos) else next) := by
  rcases bracket_cases p kind with own | ⟨bracket, differs, symbol⟩ | noBracket
  · rw [opened.nextToken_close own, if_pos own]
    exact opened.follows_close noComma key
  · have apart : ¬p.here = some kind.closing := by
      intro own
      exact differs (Container.closing_inj (Option.some.inj (symbol.symm.trans own)))
    rw [opened.nextToken_close symbol, opened.close_other differs, if_neg apart, other symbol]
    exact .syntaxError _
  · rw [opened.nextToken_item noBracket, if_neg (noBracket kind)]
    exact item

theorem Tracks.follows_first (tracks : Tracks p (.first kind outer))
    : Follows p.text p.nextToken
      (if p.here = some kind.closing then some (Machine.close kind outer p.pos)
        else Machine.readItem p.text kind outer p.pos) := by
  obtain ⟨opened, key, first, noComma⟩ := tracks
  exact opened.follows_inside key noComma readItem_other (opened.follows_first key first)

theorem Tracks.follows_rest (tracks : Tracks p (.rest kind outer))
    : Follows p.text p.nextToken
      (if p.here = some kind.closing then some (Machine.close kind outer p.pos)
        else if p.here = some Ascii.comma then
          Machine.readItem p.text kind outer (skip isWs p.text (p.pos + 1))
        else none) := by
  obtain ⟨opened, key, later, noComma⟩ := tracks
  refine opened.follows_inside key noComma (fun {bracket} symbol => if_neg ?_) ?_
  · rw [symbol, Option.some_inj]
    cases bracket <;> decide
  · by_cases comma : p.here = some Ascii.comma
    · rw [if_pos comma]
      exact opened.follows_later key later comma
    · rw [if_neg comma, opened.later_fails key later comma]
      exact .syntaxError _

theorem Tracks.follows_colon (tracks : Tracks p (.colon outer))
    : Follows p.text p.nextToken
      (if p.here = some Ascii.colon then
          Machine.readValue p.text (.object :: outer) (skip isWs p.text (p.pos + 1))
        else none) := by
  obtain ⟨opened, pending⟩ := tracks
  have isObject : p.isArray.getLsbD outer.length = false := opened.kinds.1
  have waiting : p.expectKey.getLsbD outer.length = false := pending
  have level := opened.level
  by_cases bracketed : ∃ bracket : Container, p.here = some bracket.closing
  · obtain ⟨bracket, symbol⟩ := bracketed
    have noColon : ¬p.here = some Ascii.colon := by
      intro colon
      have same : bracket.closing = Ascii.colon := Option.some.inj (symbol.symm.trans colon)
      cases bracket <;> exact absurd same (by decide)
    rw [← level] at isObject waiting
    rw [opened.nextToken_close symbol, closeContainer_pending _ isObject waiting, if_neg noColon]
    exact .syntaxError _
  · have item : p.nextItem = p.nextValue := by
      unfold Parser.nextItem
      rw [level, waiting]
      exact if_neg (fun both => Bool.false_ne_true both.2.2)
    rw [opened.nextToken_item (not_exists.mp bracketed), item]
    by_cases colon : p.here = some Ascii.colon
    · have preamble : p.valuePreamble = some (Parser.skipWs { p with pos := p.pos + 1 }) := by
        unfold Parser.valuePreamble
        rw [if_neg (Nat.ne_of_gt opened.depth_pos)]
        simp only
        rw [level, isObject, waiting]
        exact if_pos colon
      rw [if_pos colon]
      exact (opened.at_pos _).follows_nextValue preamble rfl
    · have preamble : p.valuePreamble = none := by
        unfold Parser.valuePreamble
        rw [if_neg (Nat.ne_of_gt opened.depth_pos)]
        simp only
        rw [level, isObject, waiting]
        exact if_neg colon
      rw [if_neg colon]
      unfold Parser.nextValue
      rw [preamble]
      exact .syntaxError _

theorem Tracks.follows {mode : Mode} (tracks : Tracks p mode) (going : mode ≠ .finished)
    : Follows p.text p.next (Machine.step p.text mode p.pos) := by
  have skipped := tracks.skipWs
  unfold Parser.next
  rw [tracks.opened.live]
  cases mode with
  | top => exact skipped.follows_top
  | first kind outer => exact skipped.follows_first
  | rest kind outer => exact skipped.follows_rest
  | colon outer => exact skipped.follows_colon
  | finished => exact absurd rfl going

theorem Tracks.next_finished (tracks : Tracks p .finished)
    : (p.next.2 = .done ↔ skip isWs p.text p.pos = p.text.length) ∧
      ∀ event, p.next.2 ≠ .ok event := by
  have top : p.depth = 0 := tracks.opened.depth
  have done : p.topDone = true := tracks.marks
  have token : p.next = p.skipWs.nextToken := by
    unfold Parser.next
    rw [tracks.opened.live]
    rfl
  have both : p.skipWs.topDone = true ∧ p.skipWs.depth = 0 := ⟨done, top⟩
  rw [token]
  unfold Parser.nextToken
  rw [if_pos both]
  by_cases ended : p.skipWs.pos = p.skipWs.text.length
  · rw [if_pos ended]
    refine ⟨⟨fun _ => ended, fun _ => rfl⟩, ?_⟩
    intro event same
    cases same
  · rw [if_neg ended]
    refine ⟨⟨?_, fun reached => absurd reached ended⟩, ?_⟩
    · intro same
      cases same
    · intro event same
      cases same

theorem tracks_init (text : List UInt8) : Tracks (Parser.init text) .top :=
  { opened := { depth := rfl, bound := Nat.zero_le _, kinds := trivial, live := rfl }
    marks := rfl }

end Z23.Commons
