import Z23.Commons.ZJsonpMachine

/-!
The texts the pull parser accepts. In every mode the rest of the text has to be what the grammar
still demands, and one move of the machine takes the first token off that demand.
-/

namespace Z23.Commons

open Z23.Lib.Spans

variable {text : List UInt8} {i j k : Nat}

-- Scalars

theorem Literal.head {rest : List UInt8} {c : UInt8} (literal : Literal (c :: rest) text i)
    : text[i]? = some c := by
  have first : ((text.drop i).take (c :: rest).length)[0]? = some c := by
    rw [literal]
    rfl
  rw [List.getElem?_take, if_pos (List.length_pos_of_mem List.mem_cons_self),
    List.getElem?_drop] at first
  exact first

theorem readString_iff {len stop : Nat} (opening : text[i]? = some Ascii.quote)
    : Machine.readString text i = some (len, stop) ↔
      ∃ j, Quoted text i j ∧ len = j - (i + 1) ∧ stop = j + 1 := by
  unfold Machine.readString
  constructor
  · intro read
    cases ended : stringEnd text (i + 1) with
    | error wrong =>
      rw [ended] at read
      cases read
    | ok j =>
      rw [ended] at read
      cases read
      obtain ⟨chars, closing⟩ := stringEnd_iff.mp ended
      exact ⟨j, ⟨opening, chars, closing⟩, rfl, rfl⟩
  · rintro ⟨j, quoted, rfl, rfl⟩
    rw [stringEnd_iff.mpr ⟨quoted.chars, quoted.closing⟩]

theorem readScalar_sound {c : UInt8} {token : Event} (symbol : text[i]? = some c)
    (read : Machine.readScalar text i c = some (token, j)) : Scalar text i j token := by
  unfold Machine.readScalar at read
  split at read
  · rename_i quote
    rw [quote] at symbol
    cases found : Machine.readString text i with
    | none =>
      rw [found] at read
      cases read
    | some pair =>
      obtain ⟨j', quoted, lenEq, stopEq⟩ := (readString_iff symbol).mp found
      rw [found] at read
      cases read
      rw [lenEq, stopEq]
      exact .string quoted
  · split at read
    · unfold Machine.readLiteral at read
      split at read
      · rename_i literal
        cases read
        exact .true literal
      · cases read
    · split at read
      · unfold Machine.readLiteral at read
        split at read
        · rename_i literal
          cases read
          exact .false literal
        · cases read
      · split at read
        · unfold Machine.readLiteral at read
          split at read
          · rename_i literal
            cases read
            exact .null literal
          · cases read
        · unfold Machine.readNumber at read
          cases ended : numberEnd text i with
          | error wrong =>
            rw [ended] at read
            cases read
          | ok stop =>
            rw [ended] at read
            cases read
            exact .number (numberEnd_sound ended)

theorem readLiteral_of_literal {lit : List UInt8} {kind : EventKind} (literal : Literal lit text i)
    : Machine.readLiteral text lit kind i = some (⟨kind, i, lit.length⟩, i + lit.length) :=
  if_pos literal

/-- A byte that starts a scalar: no bracket and no whitespace. -/
def scalarStart (c : UInt8) : Bool :=
  !isWs c && c != Ascii.openObject && c != Ascii.openArray

theorem readScalar_complete {token : Event} (scalar : Scalar text i j token) (ends : Ends text j)
    : ∃ c, text[i]? = some c ∧ scalarStart c = true ∧
      Machine.readScalar text i c = some (token, j) := by
  cases scalar with
  | true literal =>
    exact ⟨_, literal.head, rfl, readLiteral_of_literal literal⟩
  | false literal =>
    exact ⟨_, literal.head, rfl, readLiteral_of_literal literal⟩
  | null literal =>
    exact ⟨_, literal.head, rfl, readLiteral_of_literal literal⟩
  | string quoted =>
    refine ⟨_, quoted.opening, rfl, ?_⟩
    unfold Machine.readScalar
    rw [if_pos rfl, (readString_iff quoted.opening).mpr ⟨_, quoted, rfl, rfl⟩]
    rfl
  | number number =>
    obtain ⟨c, symbol, start⟩ := number.head
    have apart : ∀ c : UInt8, c = Ascii.minus ∨ numberDigit c = true →
        scalarStart c = true ∧ c ≠ Ascii.quote ∧ c ≠ 0x74 ∧ c ≠ 0x66 ∧ c ≠ 0x6E :=
      byte_forall (by decide +kernel)
    obtain ⟨plain, noQuote, noTrue, noFalse, noNull⟩ := apart c start
    refine ⟨c, symbol, plain, ?_⟩
    unfold Machine.readScalar Machine.readNumber
    rw [if_neg noQuote, if_neg noTrue, if_neg noFalse, if_neg noNull,
      numberEnd_complete number ends]

-- What the grammar still demands

/-- How deep a value may nest inside the open containers. -/
def room (stack : List Container) : Nat := zjrpMaxDepth - stack.length

/-- The rest of the text after a whole value: what is left of every open container. -/
def After (text : List UInt8) : List Container → Nat → List Event → Prop
  | [], i, tokens => Ws text i text.length ∧ tokens = []
  | kind :: outer, i, tokens => ∃ j k l items others,
      Derives text (.items kind) (room (kind :: outer)) i j items ∧
        Structural kind.closing text j k l ∧ After text outer l others ∧
        tokens = items ++ kind.closed k :: others

/-- A value at the position itself, then the rest. -/
def ValueAt (text : List UInt8) (stack : List Container) (i : Nat) (tokens : List Event) : Prop :=
  ∃ j value others, Derives text .value (room stack) i j value ∧ After text stack j others ∧
    tokens = value ++ others

/-- An item of the innermost container at the position itself, then the rest. -/
def ItemAt (text : List UInt8) (kind : Container) (outer : List Container) (i : Nat)
    (tokens : List Event) : Prop :=
  ∃ j item others, Derives text (.item kind) (room (kind :: outer)) i j item ∧
    After text (kind :: outer) j others ∧ tokens = item ++ others

/-- The close of a container at `k`, then the rest. -/
def ClosesAt (text : List UInt8) (kind : Container) (outer : List Container) (i : Nat)
    (tokens : List Event) : Prop :=
  ∃ k l others, Structural kind.closing text i k l ∧ After text outer l others ∧
    tokens = kind.closed k :: others

/-- What the rest of the text has to be in a mode, and its tokens. -/
def Demand (text : List UInt8) : Mode → Nat → List Event → Prop
  | .top, i, tokens => ∃ j, Ws text i j ∧ ValueAt text [] j tokens
  | .first kind outer, i, tokens =>
    ClosesAt text kind outer i tokens ∨ ∃ j, Ws text i j ∧ ItemAt text kind outer j tokens
  | .rest kind outer, i, tokens => After text (kind :: outer) i tokens
  | .colon outer, i, tokens => ∃ k j, Structural Ascii.colon text i k j ∧
      ValueAt text (.object :: outer) j tokens
  | .finished, i, tokens => After text [] i tokens

variable {stack outer : List Container} {kind : Container} {tokens : List Event}

theorem demand_after : Demand text (.after stack) i tokens ↔ After text stack i tokens := by
  cases stack <;> exact Iff.rfl

theorem Structural.prepend {c : UInt8} {l : Nat} (ws : Ws text i j)
    (structural : Structural c text j k l) : Structural c text i k l :=
  { structural with before := ws.trans structural.before }

theorem After.prepend (ws : Ws text i j) (after : After text stack j tokens)
    : After text stack i tokens := by
  cases stack with
  | nil => exact ⟨ws.trans after.1, after.2⟩
  | cons kind outer =>
    obtain ⟨b, k, l, items, others, derives, closes, rest, rfl⟩ := after
    cases derives with
    | noItems => exact ⟨i, k, l, [], others, .noItems, closes.prepend ws, rest, rfl⟩
    | moreItems separator item more =>
      exact ⟨b, k, l, _, others, .moreItems (separator.prepend ws) item more, closes, rest, rfl⟩

theorem after_cons_iff
    : After text (kind :: outer) i tokens ↔
      ClosesAt text kind outer i tokens ∨
      ∃ k j, Structural Ascii.comma text i k j ∧ ItemAt text kind outer j tokens := by
  constructor
  · rintro ⟨b, k, l, items, others, derives, closes, rest, rfl⟩
    cases derives with
    | noItems => exact .inl ⟨k, l, others, closes, rest, rfl⟩
    | moreItems separator item more =>
      rw [List.append_assoc]
      exact .inr ⟨_, _, separator, _, _, _, item, ⟨b, k, l, _, others, more, closes, rest, rfl⟩, rfl⟩
  · rintro (⟨k, l, others, closes, rest, rfl⟩ | ⟨k, j, separator, a, item, others, derives, rest, rfl⟩)
    · exact ⟨i, k, l, [], others, .noItems, closes, rest, rfl⟩
    · obtain ⟨b, k', l, items, others', more, closes, last, rfl⟩ := rest
      exact ⟨b, k', l, item ++ items, others', .moreItems separator derives more, closes, last,
        (List.append_assoc ..).symm⟩

theorem Structural.head {c : UInt8} {l : Nat} (structural : Structural c text i k l) {b : UInt8}
    (symbol : text[i]? = some b) : isWs b = true ∨ b = c := by
  obtain ⟨before, here, -⟩ := structural
  cases before with
  | refl =>
    rw [symbol] at here
    exact .inr (Option.some.inj here)
  | cons first matched rest =>
    rw [symbol] at first
    cases first
    exact .inl matched

theorem After.ends (after : After text stack j tokens) : Ends text j := by
  have heads : ∀ b, text[j]? = some b →
      isWs b = true ∨ b = Ascii.comma ∨ b = Ascii.closeArray ∨ b = Ascii.closeObject := by
    intro b symbol
    cases stack with
    | nil =>
      obtain ⟨inside, -⟩ := List.getElem?_eq_some_iff.mp symbol
      obtain ⟨c, first, matched, -⟩ := after.1.head inside
      rw [symbol] at first
      cases first
      exact .inl matched
    | cons kind outer =>
      rcases after_cons_iff.mp after with ⟨k, l, others, closes, -⟩ | ⟨k, l, separator, -⟩
      · rcases closes.head symbol with ws | bracket
        · exact .inl ws
        · cases kind with
          | array => exact .inr (.inr (.inl bracket))
          | object => exact .inr (.inr (.inr bracket))
      · rcases separator.head symbol with ws | comma
        · exact .inl ws
        · exact .inr (.inl comma)
  have plain : ∀ b : UInt8,
      isWs b = true ∨ b = Ascii.comma ∨ b = Ascii.closeArray ∨ b = Ascii.closeObject →
      numberDigit b = false ∧ b ≠ Ascii.point ∧ isExponent b = false :=
    byte_forall (by decide +kernel)
  exact
    { noDigit := fun b symbol => (plain b (heads b symbol)).1
      noPoint := fun symbol => (plain _ (heads _ symbol)).2.1 rfl
      noExponent := fun b symbol => (plain b (heads b symbol)).2.2 }

-- The first token of a value

/-- A move takes the first of the tokens, and what it leaves is what its mode demands. -/
def Takes (text : List UInt8) (move : Option Move) (tokens : List Event) : Prop :=
  ∃ taken rest, move = some taken ∧ tokens = taken.event :: rest ∧
    Demand text taken.mode taken.pos rest

theorem Structural.symbol_of_stops {c : UInt8} {l : Nat} (structural : Structural c text i k l)
    (stops : Stops isWs text i) : k = i := by
  obtain ⟨before, -, -⟩ := structural
  cases before with
  | refl => rfl
  | cons first matched rest =>
    rw [stops _ first] at matched
    cases matched

theorem readValue_opening (kind : Container) (symbol : text[i]? = some kind.opening)
    : Machine.readValue text stack i = Machine.openContainer stack kind i := by
  unfold Machine.readValue
  rw [symbol]
  cases kind <;> rfl

theorem room_cons (kind : Container) {depth : Nat} (deep : room stack = depth + 1)
    : room (kind :: stack) = depth := by
  unfold room at deep ⊢
  rw [List.length_cons]
  omega

theorem openContainer_eq {depth : Nat} (deep : room stack = depth + 1)
    : Machine.openContainer stack kind i =
      some ⟨kind.opened i, .first kind stack, i + 1⟩ := by
  refine if_neg ?_
  intro full
  unfold room at deep
  omega

theorem ValueAt.takes (stops : Stops isWs text i) (value : ValueAt text stack i tokens)
    : Takes text (Machine.readValue text stack i) tokens := by
  obtain ⟨j, value, others, derives, after, rfl⟩ := value
  generalize deep : room stack = depth at derives
  cases derives with
  | scalar scalar =>
    obtain ⟨c, symbol, start, read⟩ := readScalar_complete scalar after.ends
    simp only [scalarStart, Bool.and_eq_true, bne_iff_ne, ne_eq] at start
    refine ⟨⟨_, .after stack, j⟩, others, ?_, rfl, demand_after.mpr after⟩
    unfold Machine.readValue
    rw [symbol]
    simp only
    rw [if_neg start.1.2, if_neg start.2, read]
    rfl
  | empty opens closes =>
    cases opens.symbol_of_stops stops
    refine ⟨_, _, (readValue_opening _ opens.symbol).trans (openContainer_eq deep), rfl, ?_⟩
    exact .inl ⟨_, _, others, closes.prepend opens.after, after, rfl⟩
  | filled opens item items closes =>
    cases opens.symbol_of_stops stops
    refine ⟨_, _, (readValue_opening _ opens.symbol).trans (openContainer_eq deep), rfl, ?_⟩
    rename_i kind depth j' a b l head tail
    rw [← room_cons kind deep] at item items
    refine .inr ⟨j', opens.after, a, head, tail ++ kind.closed l :: others, item,
      ⟨b, l, j, tail, others, items, closes, after, rfl⟩, ?_⟩
    simp only [List.append_eq, List.append_assoc, List.cons_append, List.nil_append]

theorem room_of_open (kind : Container) (notFull : ¬stack.length = zjrpMaxDepth)
    (bound : stack.length ≤ zjrpMaxDepth) : room stack = room (kind :: stack) + 1 := by
  unfold room
  rw [List.length_cons]
  omega

theorem ValueAt.of_opened (bound : stack.length ≤ zjrpMaxDepth) {move : Move} {rest : List Event}
    (symbol : text[i]? = some kind.opening)
    (opened : Machine.openContainer stack kind i = some move)
    (demand : Demand text move.mode move.pos rest)
    : ValueAt text stack i (move.event :: rest) := by
  unfold Machine.openContainer at opened
  split at opened
  · cases opened
  · rename_i notFull
    cases opened
    have deep := room_of_open kind notFull bound
    have opens : ∀ j, Ws text (i + 1) j → Structural kind.opening text i i j :=
      fun j ws => ⟨.refl i, symbol, ws⟩
    rcases demand with ⟨k, l, others, closes, after, rfl⟩ | ⟨j, ws, item⟩
    · refine ⟨l, [kind.opened i, kind.closed k], others, ?_, after, rfl⟩
      rw [deep]
      exact .empty (opens _ (.refl _)) closes
    · obtain ⟨a, head, _, derives, ⟨b, k, l, items, others, more, closes, after, rfl⟩, rfl⟩ := item
      refine ⟨l, kind.opened i :: (head ++ (items ++ [kind.closed k])), others, ?_, after, ?_⟩
      · rw [deep]
        exact .filled (opens j ws) derives more closes
      · simp only [List.append_assoc, List.cons_append, List.nil_append]

theorem ValueAt.of_takes (bound : stack.length ≤ zjrpMaxDepth)
    (takes : Takes text (Machine.readValue text stack i) tokens)
    : ValueAt text stack i tokens := by
  obtain ⟨move, rest, read, rfl, demand⟩ := takes
  cases symbol : text[i]? with
  | none =>
    unfold Machine.readValue at read
    rw [symbol] at read
    cases read
  | some c =>
    by_cases opening : ∃ kind : Container, c = kind.opening
    · obtain ⟨kind, rfl⟩ := opening
      rw [readValue_opening kind symbol] at read
      exact .of_opened bound symbol read demand
    · have noObject : ¬c = Ascii.openObject := fun same => opening ⟨.object, same⟩
      have noArray : ¬c = Ascii.openArray := fun same => opening ⟨.array, same⟩
      unfold Machine.readValue at read
      rw [symbol] at read
      simp only at read
      rw [if_neg noObject, if_neg noArray] at read
      cases scalar : Machine.readScalar text i c with
      | none =>
        rw [scalar] at read
        cases read
      | some found =>
        rw [scalar] at read
        cases read
        exact ⟨found.2, [found.1], rest, .scalar (readScalar_sound symbol scalar),
          demand_after.mp demand, rfl⟩

theorem valueAt_iff (bound : stack.length ≤ zjrpMaxDepth) (stops : Stops isWs text i)
    : ValueAt text stack i tokens ↔ Takes text (Machine.readValue text stack i) tokens :=
  ⟨ValueAt.takes stops, ValueAt.of_takes bound⟩

-- The first token of an item

theorem itemAt_array
    : ItemAt text .array outer i tokens ↔ ValueAt text (.array :: outer) i tokens := by
  constructor
  · rintro ⟨j, item, others, derives, after, rfl⟩
    cases derives with
    | element value => exact ⟨j, item, others, value, after, rfl⟩
  · rintro ⟨j, value, others, derives, after, rfl⟩
    exact ⟨j, value, others, .element derives, after, rfl⟩

theorem itemAt_object
    : ItemAt text .object outer i tokens ↔ Takes text (Machine.readKey text outer i) tokens := by
  unfold Machine.readKey
  constructor
  · rintro ⟨m, item, others, derives, after, rfl⟩
    cases derives with
    | member name separator value =>
      rename_i j k l tokens
      rw [if_pos name.opening, (readString_iff name.opening).mpr ⟨j, name, rfl, rfl⟩]
      exact ⟨_, tokens ++ others, rfl, rfl, k, l, separator, m, tokens, others, value, after, rfl⟩
  · rintro ⟨move, rest, read, rfl, demand⟩
    split at read
    · rename_i opening
      cases found : Machine.readString text i with
      | none =>
        rw [found] at read
        cases read
      | some pair =>
        obtain ⟨j, quoted, lenEq, stopEq⟩ := (readString_iff opening).mp found
        rw [found] at read
        cases read
        obtain ⟨k, l, separator, m, value, others, derives, after, rfl⟩ := demand
        simp only [lenEq, stopEq] at separator ⊢
        exact ⟨m, _, others, .member quoted separator derives, after, rfl⟩
    · cases read

theorem itemAt_iff (bound : (kind :: outer).length ≤ zjrpMaxDepth) (stops : Stops isWs text i)
    : ItemAt text kind outer i tokens ↔
      Takes text (Machine.readItem text kind outer i) tokens := by
  cases kind with
  | array => exact itemAt_array.trans (valueAt_iff bound stops)
  | object => exact itemAt_object

-- Whitespace before a token

theorem stops_of_symbol {c : UInt8} (symbol : text[i]? = some c) (plain : isWs c = false)
    : Stops isWs text i := by
  intro b present
  rw [symbol] at present
  cases present
  exact plain

theorem Container.opening_plain (kind : Container) : isWs kind.opening = false := by
  cases kind <;> rfl

theorem Container.closing_plain (kind : Container) : isWs kind.closing = false := by
  cases kind <;> rfl

theorem ValueAt.trim (value : ValueAt text stack i tokens)
    : ∃ k, Ws text i k ∧ Stops isWs text k ∧ ValueAt text stack k tokens := by
  obtain ⟨j, value, others, derives, after, rfl⟩ := value
  generalize deep : room stack = depth at derives
  cases derives with
  | scalar scalar =>
    obtain ⟨c, symbol, start, -⟩ := readScalar_complete scalar after.ends
    simp only [scalarStart, Bool.and_eq_true, Bool.not_eq_true'] at start
    exact ⟨i, .refl i, stops_of_symbol symbol start.1.1, j, _, others, .scalar scalar, after, rfl⟩
  | empty opens closes =>
    refine ⟨_, opens.before, stops_of_symbol opens.symbol (Container.opening_plain _), j, _,
      others, ?_, after, rfl⟩
    rw [deep]
    exact .empty { opens with before := .refl _ } closes
  | filled opens item items closes =>
    refine ⟨_, opens.before, stops_of_symbol opens.symbol (Container.opening_plain _), j, _,
      others, ?_, after, rfl⟩
    rw [deep]
    exact .filled { opens with before := .refl _ } item items closes

theorem ItemAt.trim (item : ItemAt text kind outer i tokens)
    : ∃ k, Ws text i k ∧ Stops isWs text k ∧ ItemAt text kind outer k tokens := by
  cases kind with
  | array =>
    obtain ⟨k, ws, stops, value⟩ := (itemAt_array.mp item).trim
    exact ⟨k, ws, stops, itemAt_array.mpr value⟩
  | object =>
    refine ⟨i, .refl i, ?_, item⟩
    obtain ⟨j, item, others, derives, after, rfl⟩ := item
    cases derives with
    | member name separator value => exact stops_of_symbol name.opening rfl

theorem valueAt_skip
    : (∃ j, Ws text i j ∧ ValueAt text stack j tokens) ↔
      ValueAt text stack (skip isWs text i) tokens := by
  constructor
  · rintro ⟨j, ws, value⟩
    obtain ⟨k, before, stops, trimmed⟩ := value.trim
    rw [(ws.trans before).skip_eq stops]
    exact trimmed
  · intro value
    exact ⟨_, skip_run isWs text i, value⟩

theorem itemAt_skip
    : (∃ j, Ws text i j ∧ ItemAt text kind outer j tokens) ↔
      ItemAt text kind outer (skip isWs text i) tokens := by
  constructor
  · rintro ⟨j, ws, item⟩
    obtain ⟨k, before, stops, trimmed⟩ := item.trim
    rw [(ws.trans before).skip_eq stops]
    exact trimmed
  · intro item
    exact ⟨_, skip_run isWs text i, item⟩

theorem structural_iff {c : UInt8} (plain : isWs c = false)
    : Structural c text i k j ↔
      k = skip isWs text i ∧ text[skip isWs text i]? = some c ∧ Ws text (k + 1) j := by
  constructor
  · intro structural
    have place := structural.before.skip_eq (stops_of_symbol structural.symbol plain)
    rw [place]
    exact ⟨rfl, structural.symbol, structural.after⟩
  · rintro ⟨rfl, symbol, after⟩
    exact ⟨skip_run isWs text i, symbol, after⟩

theorem closesAt_iff
    : ClosesAt text kind outer i tokens ↔
      text[skip isWs text i]? = some kind.closing ∧
        Takes text (some (Machine.close kind outer (skip isWs text i))) tokens := by
  constructor
  · rintro ⟨k, l, others, closes, after, rfl⟩
    obtain ⟨rfl, symbol, ws⟩ := (structural_iff kind.closing_plain).mp closes
    exact ⟨symbol, _, others, rfl, rfl, demand_after.mpr (after.prepend ws)⟩
  · rintro ⟨symbol, move, rest, same, rfl, demand⟩
    cases same
    refine ⟨_, _, rest, ?_, demand_after.mp demand, rfl⟩
    exact (structural_iff kind.closing_plain).mpr ⟨rfl, symbol, .refl _⟩

theorem separated_iff {c : UInt8} (plain : isWs c = false) {next : Nat → Prop}
    : (∃ k j, Structural c text i k j ∧ next j) ↔
      text[skip isWs text i]? = some c ∧ ∃ j, Ws text (skip isWs text i + 1) j ∧ next j := by
  constructor
  · rintro ⟨k, j, separator, rest⟩
    obtain ⟨rfl, symbol, ws⟩ := (structural_iff plain).mp separator
    exact ⟨symbol, j, ws, rest⟩
  · rintro ⟨symbol, j, ws, rest⟩
    exact ⟨_, j, (structural_iff plain).mpr ⟨rfl, symbol, ws⟩, rest⟩

-- One move

theorem not_takes_none : ¬Takes text none tokens := by
  rintro ⟨move, rest, same, -⟩
  cases same

section

variable (bound : (kind :: outer).length ≤ zjrpMaxDepth)
include bound

theorem not_itemAt_closing (symbol : text[i]? = some kind.closing)
    : ¬ItemAt text kind outer i tokens := by
  intro item
  have takes := (itemAt_iff bound (stops_of_symbol symbol kind.closing_plain)).mp item
  rw [readItem_other symbol] at takes
  exact not_takes_none takes

theorem demand_first_iff
    : Demand text (.first kind outer) i tokens ↔
      Takes text (Machine.step text (.first kind outer) i) tokens := by
  have stops := skip_stops isWs text i
  unfold Demand Machine.step
  simp only
  rw [closesAt_iff, itemAt_skip]
  by_cases closing : text[skip isWs text i]? = some kind.closing
  · rw [if_pos closing]
    constructor
    · rintro (⟨-, takes⟩ | item)
      · exact takes
      · exact absurd item (not_itemAt_closing bound closing)
    · intro takes
      exact .inl ⟨closing, takes⟩
  · rw [if_neg closing]
    constructor
    · rintro (⟨symbol, -⟩ | item)
      · exact absurd symbol closing
      · exact (itemAt_iff bound stops).mp item
    · intro takes
      exact .inr ((itemAt_iff bound stops).mpr takes)

theorem demand_rest_iff
    : Demand text (.rest kind outer) i tokens ↔
      Takes text (Machine.step text (.rest kind outer) i) tokens := by
  have comma_plain : isWs Ascii.comma = false := rfl
  have stops := skip_stops isWs text (skip isWs text i + 1)
  unfold Demand Machine.step
  simp only
  rw [after_cons_iff, closesAt_iff, separated_iff comma_plain, itemAt_skip]
  by_cases closing : text[skip isWs text i]? = some kind.closing
  · have apart : kind.closing ≠ Ascii.comma := by cases kind <;> decide
    rw [if_pos closing]
    constructor
    · rintro (⟨-, takes⟩ | ⟨comma, -⟩)
      · exact takes
      · rw [closing] at comma
        exact absurd (Option.some.inj comma) apart
    · intro takes
      exact .inl ⟨closing, takes⟩
  · rw [if_neg closing]
    by_cases comma : text[skip isWs text i]? = some Ascii.comma
    · rw [if_pos comma]
      constructor
      · rintro (⟨symbol, -⟩ | ⟨-, item⟩)
        · exact absurd symbol closing
        · exact (itemAt_iff bound stops).mp item
      · intro takes
        exact .inr ⟨comma, (itemAt_iff bound stops).mpr takes⟩
    · rw [if_neg comma]
      constructor
      · rintro (⟨symbol, -⟩ | ⟨symbol, -⟩)
        · exact absurd symbol closing
        · exact absurd symbol comma
      · intro takes
        exact absurd takes not_takes_none

end

theorem demand_colon_iff (bound : (Container.object :: outer).length ≤ zjrpMaxDepth)
    : Demand text (.colon outer) i tokens ↔
      Takes text (Machine.step text (.colon outer) i) tokens := by
  have colon_plain : isWs Ascii.colon = false := rfl
  have stops := skip_stops isWs text (skip isWs text i + 1)
  unfold Demand Machine.step
  simp only
  rw [separated_iff colon_plain, valueAt_skip]
  by_cases colon : text[skip isWs text i]? = some Ascii.colon
  · rw [if_pos colon, ← valueAt_iff bound stops]
    exact ⟨fun both => both.2, fun value => ⟨colon, value⟩⟩
  · rw [if_neg colon]
    exact ⟨fun both => absurd both.1 colon, fun takes => absurd takes not_takes_none⟩

theorem demand_iff_takes {mode : Mode} (going : mode ≠ .finished)
    (bound : mode.stack.length ≤ zjrpMaxDepth)
    : Demand text mode i tokens ↔ Takes text (Machine.step text mode i) tokens := by
  cases mode with
  | top => exact valueAt_skip.trans (valueAt_iff bound (skip_stops isWs text i))
  | first kind outer => exact demand_first_iff bound
  | rest kind outer => exact demand_rest_iff bound
  | colon outer => exact demand_colon_iff bound
  | finished => exact absurd rfl going

-- Whole runs

/-- Calls from the parser's state give the events and then `done`, with nothing else between. -/
inductive Parser.Yields : Parser → List Event → Prop where
  | done {p : Parser} (ended : p.next.2 = .done) : Yields p []
  | event {p : Parser} {event : Event} {events : List Event} (ok : p.next.2 = .ok event)
      (rest : Yields p.next.1 events) : Yields p (event :: events)

theorem ws_iff_skip : Ws text i text.length ↔ skip isWs text i = text.length := by
  constructor
  · intro ws
    refine ws.skip_eq ?_
    intro c present
    rw [List.getElem?_eq_none (Nat.le_refl _)] at present
    cases present
  · intro reached
    have run := skip_run isWs text i
    rw [reached] at run
    exact run

theorem Follows.of_some {result : Parser × Outcome} {move : Move}
    (follows : Follows text result (some move))
    : result.2 = .ok move.event ∧ Tracks result.1 move.mode ∧ result.1.pos = move.pos ∧
      result.1.text = text := by
  cases follows with
  | moves same tracks => exact ⟨rfl, tracks, rfl, same⟩

theorem Follows.of_none {result : Parser × Outcome} (follows : Follows text result none)
    (event : Event) : result.2 ≠ .ok event := by
  intro same
  cases follows <;> cases same

theorem Follows.not_done {result : Parser × Outcome} {move : Option Move}
    (follows : Follows text result move) : result.2 ≠ .done := by
  intro same
  cases follows <;> cases same

theorem Tracks.yields_iff {p : Parser} {mode : Mode} {events : List Event} (tracks : Tracks p mode)
    : p.Yields events ↔ Demand p.text mode p.pos events := by
  induction events generalizing p mode with
  | nil =>
    by_cases going : mode = .finished
    · cases going
      obtain ⟨done, -⟩ := tracks.next_finished
      constructor
      · intro yields
        cases yields with
        | done ended => exact ⟨ws_iff_skip.mpr (done.mp ended), rfl⟩
      · rintro ⟨ws, -⟩
        exact .done (done.mpr (ws_iff_skip.mp ws))
    · constructor
      · intro yields
        cases yields with
        | done ended => exact absurd ended (tracks.follows going).not_done
      · intro demand
        obtain ⟨move, rest, -, same, -⟩ := (demand_iff_takes going tracks.opened.bound).mp demand
        cases same
  | cons event events ih =>
    by_cases going : mode = .finished
    · cases going
      obtain ⟨-, noEvent⟩ := tracks.next_finished
      constructor
      · intro yields
        cases yields with
        | event ok rest => exact absurd ok (noEvent event)
      · rintro ⟨-, same⟩
        cases same
    · have follows := tracks.follows going
      rw [demand_iff_takes going tracks.opened.bound]
      constructor
      · intro yields
        cases yields with
        | event ok rest =>
          cases stepped : Machine.step p.text mode p.pos with
          | none =>
            rw [stepped] at follows
            exact absurd ok (follows.of_none event)
          | some move =>
            rw [stepped] at follows
            obtain ⟨moved, tracked, place, same⟩ := follows.of_some
            rw [ok] at moved
            have demand := (ih tracked).mp rest
            rw [same, place] at demand
            exact ⟨move, events, rfl, by rw [Outcome.ok.inj moved], demand⟩
      · rintro ⟨move, rest, stepped, same, demand⟩
        rw [stepped] at follows
        obtain ⟨moved, tracked, place, sameText⟩ := follows.of_some
        cases same
        refine .event moved ((ih tracked).mpr ?_)
        rw [sameText, place]
        exact demand

theorem demand_top_iff
    : Demand text .top 0 tokens ↔ JsonText zjrpMaxDepth text tokens := by
  constructor
  · rintro ⟨i, before, j, value, others, derives, ⟨after, rfl⟩, rfl⟩
    rw [List.append_nil]
    exact ⟨i, j, before, derives, after⟩
  · rintro ⟨i, j, before, derives, after⟩
    exact ⟨i, before, j, tokens, [], derives, ⟨after, rfl⟩, (List.append_nil tokens).symm⟩

/-- The calls from the initial state reach `done` exactly on the JSON texts, and the events before
it are the tokens of the text, which balance. -/
theorem yields_iff_jsonText (text : List UInt8)
    : (∀ events, (Parser.init text).Yields events ↔ JsonText zjrpMaxDepth text events) ∧
      ∀ events, (Parser.init text).Yields events → Balanced events := by
  have accepted : ∀ events,
      (Parser.init text).Yields events ↔ JsonText zjrpMaxDepth text events := by
    intro events
    exact (tracks_init text).yields_iff.trans demand_top_iff
  refine ⟨accepted, ?_⟩
  intro events yields
  exact ((accepted events).mp yields).balanced

end Z23.Commons
