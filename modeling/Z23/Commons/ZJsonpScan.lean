import Z23.Commons.JsonGrammar

/-!
The scanners of the pull parser and the tokens of the grammar. A string is scanned byte by byte
and decoded afterwards; a number is taken as far as it goes, which is all of it when what follows
cannot continue a number.
-/

namespace Z23.Commons

open Z23.Lib.Spans

variable {text : List UInt8} {i j k : Nat}

-- Escapes

theorem scanUnicodeEscape_sound (scanned : scanUnicodeEscape text i = .ok k)
    : HexDigits text (i + 2) ∧ k = i + 6 := by
  unfold scanUnicodeEscape at scanned
  split at scanned
  · cases scanned
  · rename_i long
    split at scanned
    · cases scanned
    · rename_i hex
      cases scanned
      refine ⟨?_, rfl⟩
      intro step below
      have symbol : text[i + 2 + step]? = some (text.get ⟨i + 2 + step, by omega⟩) :=
        List.getElem?_eq_getElem (by omega)
      have held : text.get ⟨i + 2 + step, by omega⟩ ∈ (text.drop (i + 2)).take 4 := by
        refine List.mem_iff_getElem?.mpr ⟨step, ?_⟩
        rw [List.getElem?_take, List.getElem?_drop, if_pos below, symbol]
      have digit := List.findIdx?_eq_none_iff.mp hex _ held
      exact ⟨_, symbol, by simpa using digit⟩

theorem scanUnicodeEscape_complete (digits : HexDigits text (i + 2))
    : scanUnicodeEscape text i = .ok (i + 6) := by
  obtain ⟨c, last, -⟩ := digits 3 (by decide)
  obtain ⟨inside, -⟩ := List.getElem?_eq_some_iff.mp last
  have hex : ((text.drop (i + 2)).take 4).findIdx? (fun h => !isHex h) = none := by
    rw [List.findIdx?_eq_none_iff]
    intro b held
    obtain ⟨step, found⟩ := List.mem_iff_getElem?.mp held
    rw [List.getElem?_take, List.getElem?_drop] at found
    split at found
    · rename_i below
      obtain ⟨d, symbol, digit⟩ := digits step below
      rw [found] at symbol
      cases symbol
      rw [digit]
      rfl
    · cases found
  unfold scanUnicodeEscape
  rw [if_neg (by omega), hex]

/-- What an escape may be: a known letter, or four digits after a `u`. -/
inductive Escape (text : List UInt8) (i : Nat) : Nat → Prop where
  | letter {e : UInt8} (letter : text[i + 1]? = some e) (known : isEscaped e = true)
      : Escape text i (i + 2)
  | unicode (letter : text[i + 1]? = some Ascii.letterU) (digits : HexDigits text (i + 2))
      : Escape text i (i + 6)

theorem scanEscape_sound (scanned : scanEscape text i = .ok k) : Escape text i k := by
  unfold scanEscape at scanned
  split at scanned
  · cases scanned
  · rename_i e symbol
    split at scanned
    · rename_i unicode
      obtain ⟨digits, rfl⟩ := scanUnicodeEscape_sound scanned
      exact .unicode (unicode ▸ symbol) digits
    · split at scanned
      · rename_i known
        cases scanned
        exact .letter symbol known
      · cases scanned

theorem scanEscape_complete (escape : Escape text i k) : scanEscape text i = .ok k := by
  unfold scanEscape
  cases escape with
  | letter letter known =>
    rename_i e
    have other : e ≠ Ascii.letterU := by
      intro same
      rw [same] at known
      exact absurd known (by decide)
    rw [letter]
    simp only
    rw [if_neg other, if_pos known]
  | unicode letter digits =>
    rw [letter]
    simp only
    rw [if_pos trivial, scanUnicodeEscape_complete digits]

theorem Escape.lt (escape : Escape text i k) : i + 1 < k := by
  cases escape <;> omega

-- The bytes of a string

/-- What the scan passes over before the closing quote, whatever it decodes as. -/
inductive Raw (text : List UInt8) : Nat → Nat → Prop where
  | nil (i : Nat) : Raw text i i
  | plain {i j : Nat} {c : UInt8} (symbol : text[i]? = some c) (plain : Unescaped c)
      (rest : Raw text (i + 1) j) : Raw text i j
  | escape {i k j : Nat} (symbol : text[i]? = some Ascii.backslash) (escape : Escape text i k)
      (rest : Raw text k j) : Raw text i j

theorem Raw.le (raw : Raw text i j) : i ≤ j := by
  induction raw with
  | nil i => exact Nat.le_refl i
  | plain symbol plain rest ih => exact Nat.le_of_succ_le ih
  | escape symbol escape rest ih =>
    have past := escape.lt
    omega

theorem scanBody_sound {fuel : Nat} (scanned : scanBody text fuel i = .ok j)
    : Raw text i j ∧ text[j]? = some Ascii.quote := by
  induction fuel generalizing i with
  | zero => cases scanned
  | succ fuel ih =>
    unfold scanBody at scanned
    split at scanned
    · cases scanned
    · rename_i c symbol
      split at scanned
      · rename_i quote
        cases scanned
        exact ⟨.nil _, quote ▸ symbol⟩
      · rename_i noQuote
        split at scanned
        · rename_i backslash
          cases escaped : scanEscape text i with
          | error wrong =>
            rw [escaped] at scanned
            cases scanned
          | ok k =>
            rw [escaped] at scanned
            obtain ⟨raw, closing⟩ := ih scanned
            exact ⟨.escape (backslash ▸ symbol) (scanEscape_sound escaped) raw, closing⟩
        · rename_i noBackslash
          split at scanned
          · cases scanned
          · rename_i printable
            obtain ⟨raw, closing⟩ := ih scanned
            exact ⟨.plain symbol ⟨UInt8.not_lt.mp printable, noQuote, noBackslash⟩ raw, closing⟩

theorem scanBody_complete (raw : Raw text i j) (closing : text[j]? = some Ascii.quote)
    {fuel : Nat} (enough : text.length < i + fuel) : scanBody text fuel i = .ok j := by
  induction raw generalizing fuel with
  | nil i =>
    obtain ⟨inside, -⟩ := List.getElem?_eq_some_iff.mp closing
    obtain ⟨fuel, rfl⟩ : ∃ less, fuel = less + 1 := ⟨fuel - 1, by omega⟩
    rw [scanBody, closing]
    rfl
  | plain symbol plain rest ih =>
    obtain ⟨inside, -⟩ := List.getElem?_eq_some_iff.mp symbol
    obtain ⟨fuel, rfl⟩ : ∃ less, fuel = less + 1 := ⟨fuel - 1, by omega⟩
    obtain ⟨printable, noQuote, noBackslash⟩ := plain
    rw [scanBody, symbol]
    simp only
    rw [if_neg noQuote, if_neg noBackslash, if_neg (UInt8.not_lt.mpr printable)]
    exact ih closing (by omega)
  | escape symbol escape rest ih =>
    obtain ⟨inside, -⟩ := List.getElem?_eq_some_iff.mp symbol
    obtain ⟨fuel, rfl⟩ : ∃ less, fuel = less + 1 := ⟨fuel - 1, by omega⟩
    have past := escape.lt
    rw [scanBody, symbol]
    simp only
    rw [if_neg (by decide), if_pos trivial, scanEscape_complete escape]
    exact ih closing (by omega)

theorem stringPayloadValid_sound {stop fuel : Nat}
    (valid : stringPayloadValid text stop fuel i = .ok ()) (inside : i ≤ stop)
    : Utf8Octets text i stop := by
  induction fuel generalizing i with
  | zero => cases valid
  | succ fuel ih =>
    unfold stringPayloadValid at valid
    split at valid
    · rename_i past
      rw [Nat.le_antisymm inside past]
      exact .nil stop
    · split at valid
      · cases valid
      · rename_i cp consumed decoded
        obtain ⟨char, within⟩ := decodeN_slice_sound decoded
        exact .cons char (ih valid within)

theorem stringPayloadValid_complete {stop fuel : Nat} (octets : Utf8Octets text i stop)
    (enough : stop < i + fuel) : stringPayloadValid text stop fuel i = .ok () := by
  induction octets generalizing fuel with
  | nil i =>
    obtain ⟨fuel, rfl⟩ : ∃ less, fuel = less + 1 := ⟨fuel - 1, by omega⟩
    rw [stringPayloadValid, if_pos (Nat.le_refl i)]
  | cons char rest ih =>
    have proper := char.lt
    have inside := rest.le
    obtain ⟨fuel, rfl⟩ : ∃ less, fuel = less + 1 := ⟨fuel - 1, by omega⟩
    obtain ⟨cp, decoded⟩ := decodeN_slice_complete char inside
    rw [stringPayloadValid, if_neg (by omega), decoded]
    simp only
    rw [Nat.add_sub_cancel' (Nat.le_of_lt proper)]
    exact ih (by omega)

-- Bytes and characters

/-- A byte out of ASCII is neither a quote nor a backslash nor a control character. -/
theorem unescaped_of_high {c : UInt8} (high : 0x80 ≤ c) : Unescaped c := by
  refine ⟨UInt8.le_trans (by decide) high, ?_, ?_⟩
  · intro same
    rw [same] at high
    exact absurd high (by decide)
  · intro same
    rw [same] at high
    exact absurd high (by decide)

theorem Raw.prepend_high (high : ∀ step, i ≤ step → step < k → ∃ c, text[step]? = some c ∧ 0x80 ≤ c)
    (inside : i ≤ k) (raw : Raw text k j) : Raw text i j := by
  induction left : k - i generalizing i with
  | zero =>
    have same : i = k := by omega
    rw [same]
    exact raw
  | succ left ih =>
    obtain ⟨c, symbol, above⟩ := high i (Nat.le_refl i) (by omega)
    refine .plain symbol (unescaped_of_high above) (ih ?_ (by omega) (by omega))
    intro step low below
    exact high step (by omega) below

theorem Raw.drop_high (high : ∀ step, i ≤ step → step < k → ∃ c, text[step]? = some c ∧ 0x80 ≤ c)
    (first : i ≤ k) (inside : k ≤ j) (raw : Raw text i j) : Raw text k j := by
  induction left : k - i generalizing i with
  | zero =>
    have same : k = i := by omega
    rw [same]
    exact raw
  | succ left ih =>
    have later : ∀ step, i + 1 ≤ step → step < k → ∃ c, text[step]? = some c ∧ 0x80 ≤ c := by
      intro step low below
      exact high step (by omega) below
    obtain ⟨c, symbol, above⟩ := high i (Nat.le_refl i) (by omega)
    cases raw with
    | nil => omega
    | plain symbol' plain rest => exact ih later (by omega) rest (by omega)
    | escape backslash escape rest =>
      rw [symbol] at backslash
      cases backslash
      exact absurd above (by decide)

theorem Chars.raw (chars : Chars text i j) : Raw text i j := by
  induction chars with
  | nil i => exact .nil i
  | unescaped symbol plain char rest ih =>
    rename_i i k j c
    by_cases ascii : c < 0x80
    · rw [char.ascii_end symbol ascii] at ih
      exact .plain symbol plain ih
    · exact .prepend_high (char.high symbol ascii) (Nat.le_of_lt char.lt) ih
  | escaped symbol letter known rest ih => exact .escape symbol (.letter letter known) ih
  | unicode symbol letter digits rest ih => exact .escape symbol (.unicode letter digits) ih

theorem Escape.ascii (escape : Escape text i k) (step : Nat) (low : i < step) (below : step < k)
    : ∃ c, text[step]? = some c ∧ c < 0x80 := by
  have letters : ∀ e : UInt8, isEscaped e = true → e < 0x80 := byte_forall (by decide +kernel)
  have hexes : ∀ h : UInt8, isHex h = true → h < 0x80 := byte_forall (by decide +kernel)
  cases escape with
  | letter letter known =>
    have here : step = i + 1 := by omega
    rw [here]
    exact ⟨_, letter, letters _ known⟩
  | unicode letter digits =>
    rcases Nat.eq_or_lt_of_le (Nat.succ_le_of_lt low) with here | later
    · rw [← here]
      exact ⟨_, letter, by decide⟩
    · obtain ⟨h, symbol, hex⟩ := digits (step - (i + 2)) (by omega)
      have position : i + 2 + (step - (i + 2)) = step := by omega
      rw [position] at symbol
      exact ⟨h, symbol, hexes h hex⟩

theorem Utf8Octets.prepend_ascii
    (ascii : ∀ step, i ≤ step → step < k → ∃ c, text[step]? = some c ∧ c < 0x80)
    (inside : i ≤ k) (octets : Utf8Octets text k j) : Utf8Octets text i j := by
  induction left : k - i generalizing i with
  | zero =>
    have same : i = k := by omega
    rw [same]
    exact octets
  | succ left ih =>
    obtain ⟨c, symbol, below⟩ := ascii i (Nat.le_refl i) (by omega)
    have char : Utf8Char text i (i + 1) := .one ⟨c, symbol, zero_le_byte c, (ascii_iff c).mpr below⟩
    refine .cons char (ih ?_ (by omega) (by omega))
    intro step low below
    exact ascii step (by omega) below

theorem Utf8Octets.drop_ascii
    (ascii : ∀ step, i ≤ step → step < k → ∃ c, text[step]? = some c ∧ c < 0x80)
    (first : i ≤ k) (inside : k ≤ j) (octets : Utf8Octets text i j) : Utf8Octets text k j := by
  induction left : k - i generalizing i with
  | zero =>
    have same : k = i := by omega
    rw [same]
    exact octets
  | succ left ih =>
    have later : ∀ step, i + 1 ≤ step → step < k → ∃ c, text[step]? = some c ∧ c < 0x80 := by
      intro step low below
      exact ascii step (by omega) below
    obtain ⟨c, symbol, below⟩ := ascii i (Nat.le_refl i) (by omega)
    exact ih later (by omega) (octets.ascii (by omega) symbol below) (by omega)

theorem Escape.ascii_from (symbol : text[i]? = some Ascii.backslash) (escape : Escape text i k)
    (step : Nat) (low : i ≤ step) (below : step < k) : ∃ c, text[step]? = some c ∧ c < 0x80 := by
  rcases Nat.eq_or_lt_of_le low with rfl | later
  · exact ⟨_, symbol, by decide⟩
  · exact escape.ascii step later below

theorem Chars.octets (chars : Chars text i j) : Utf8Octets text i j := by
  induction chars with
  | nil i => exact .nil i
  | unescaped symbol plain char rest ih => exact .cons char ih
  | escaped symbol letter known rest ih =>
    exact .prepend_ascii (Escape.ascii_from symbol (.letter letter known)) (by omega) ih
  | unicode symbol letter digits rest ih =>
    exact .prepend_ascii (Escape.ascii_from symbol (.unicode letter digits)) (by omega) ih

theorem Chars.escape (symbol : text[i]? = some Ascii.backslash) (escape : Escape text i k)
    (rest : Chars text k j) : Chars text i j := by
  cases escape with
  | letter letter known => exact .escaped symbol letter known rest
  | unicode letter digits => exact .unicode symbol letter digits rest

theorem Chars.of_raw (raw : Raw text i j) (octets : Utf8Octets text i j) : Chars text i j := by
  induction left : j - i using Nat.strongRecOn generalizing i with
  | ind left ih =>
    cases raw with
    | nil => exact .nil _
    | escape symbol escape rest =>
      have past := escape.lt
      have inside := rest.le
      have decoded := octets.drop_ascii (escape.ascii_from symbol) (by omega) inside
      exact .escape symbol escape (ih _ (by omega) rest decoded rfl)
    | plain symbol plain rest =>
      rename_i c
      have inside := rest.le
      cases octets with
      | nil => omega
      | cons char decoded =>
        rename_i k
        have proper := char.lt
        have within := decoded.le
        refine .unescaped symbol plain char (ih _ (by omega) ?_ decoded rfl)
        by_cases ascii : c < 0x80
        · rw [char.ascii_end symbol ascii]
          exact rest
        · exact .drop_high (char.high symbol ascii) (Nat.le_of_lt proper) within
            (.plain symbol plain rest)

theorem stringEnd_iff {start stop : Nat}
    : stringEnd text start = .ok stop ↔
      Chars text start stop ∧ text[stop]? = some Ascii.quote := by
  constructor
  · intro scanned
    unfold stringEnd at scanned
    cases body : scanBody text (text.length + 1 - start) start with
    | error wrong =>
      rw [body] at scanned
      cases scanned
    | ok found =>
      obtain ⟨raw, closing⟩ := scanBody_sound body
      rw [body] at scanned
      cases valid : stringPayloadValid text found (found + 1 - start) start with
      | error wrong =>
        simp only [Except.bind, valid] at scanned
        cases scanned
      | ok =>
        simp only [Except.bind, valid] at scanned
        cases scanned
        exact ⟨.of_raw raw (stringPayloadValid_sound valid raw.le), closing⟩
  · intro ⟨chars, closing⟩
    unfold stringEnd
    rw [scanBody_complete chars.raw closing (by omega)]
    simp only [Except.bind]
    rw [stringPayloadValid_complete chars.octets (by omega)]

-- Numbers

theorem numberDigit_iff (c : UInt8) : numberDigit c = true ↔ 0x30 ≤ c ∧ c ≤ 0x39 := by
  simp [numberDigit]

theorem numberDigits_sound (scanned : numberDigits text i = .ok j) : Digits text i j := by
  unfold numberDigits at scanned
  split at scanned
  · cases scanned
  · rename_i c symbol
    split at scanned
    · rename_i digit
      cases scanned
      rw [skip_of_symbol symbol digit]
      exact ⟨⟨c, symbol, (numberDigit_iff c).mp digit⟩, skip_run numberDigit text (i + 1)⟩
    · cases scanned

theorem numberDigits_complete (digits : Digits text i j) (stops : Stops numberDigit text j)
    : numberDigits text i = .ok j := by
  obtain ⟨⟨c, symbol, range⟩, rest⟩ := digits
  have digit := (numberDigit_iff c).mpr range
  unfold numberDigits
  rw [symbol]
  simp only
  rw [if_pos digit, skip_of_symbol symbol digit, rest.skip_eq stops]

theorem numberInteger_sound (scanned : numberInteger text i = .ok j)
    : ∃ a, Minus text i a ∧ IntPart text a j := by
  unfold numberInteger at scanned
  have minus : Minus text i (if text[i]? = some Ascii.minus then i + 1 else i) := by
    split
    · rename_i symbol
      exact .present symbol
    · exact .absent
  refine ⟨_, minus, ?_⟩
  generalize (if text[i]? = some Ascii.minus then i + 1 else i) = a at scanned
  simp only at scanned
  split at scanned
  · cases scanned
  · rename_i c symbol
    split at scanned
    · rename_i zero
      cases scanned
      exact .zero (zero ▸ symbol)
    · split at scanned
      · rename_i range
        cases scanned
        have digit := (numberDigit_iff c).mpr ⟨UInt8.le_trans (by decide) range.1, range.2⟩
        rw [skip_of_symbol symbol digit]
        exact .digits ⟨c, symbol, range⟩ (skip_run numberDigit text (a + 1))
      · cases scanned

theorem IntPart.first (int : IntPart text i j) : InRange 0x30 0x39 text i := by
  cases int with
  | zero symbol => exact ⟨_, symbol, by decide, by decide⟩
  | digits first rest =>
    obtain ⟨c, symbol, above, below⟩ := first
    exact ⟨c, symbol, UInt8.le_trans (by decide) above, below⟩

/-- Where a number may end: before a byte that continues none. -/
structure Ends (text : List UInt8) (j : Nat) : Prop where
  noDigit : Stops numberDigit text j
  noPoint : text[j]? ≠ some Ascii.point
  noExponent : Stops isExponent text j

theorem numberInteger_complete {a : Nat} (minus : Minus text i a) (int : IntPart text a j)
    (stops : Stops numberDigit text j) : numberInteger text i = .ok j := by
  have skipped : (if text[i]? = some Ascii.minus then i + 1 else i) = a := by
    cases minus with
    | absent =>
      obtain ⟨c, symbol, above, -⟩ := int.first
      refine if_neg ?_
      intro same
      rw [symbol] at same
      cases same
      exact absurd above (by decide)
    | present symbol => exact if_pos symbol
  unfold numberInteger
  simp only
  rw [skipped]
  cases int with
  | zero symbol =>
    rw [symbol]
    rfl
  | digits first rest =>
    obtain ⟨c, symbol, range⟩ := first
    have nonzero : c ≠ Ascii.zero := by
      intro same
      rw [same] at range
      exact absurd range.1 (by decide)
    have digit := (numberDigit_iff c).mpr ⟨UInt8.le_trans (by decide) range.1, range.2⟩
    rw [symbol]
    simp only
    rw [if_neg nonzero, if_pos range, skip_of_symbol symbol digit, rest.skip_eq stops]

theorem numberFraction_sound (scanned : numberFraction text i = .ok j) : Frac text i j := by
  unfold numberFraction at scanned
  split at scanned
  · rename_i symbol
    exact .present symbol (numberDigits_sound scanned)
  · cases scanned
    exact .absent

theorem numberFraction_complete (frac : Frac text i j) (stops : Stops numberDigit text j)
    (noPoint : text[j]? ≠ some Ascii.point) : numberFraction text i = .ok j := by
  unfold numberFraction
  cases frac with
  | absent => rw [if_neg noPoint]
  | present symbol digits => rw [if_pos symbol, numberDigits_complete digits stops]

theorem numberExponent_sound (scanned : numberExponent text i = .ok j) : Exponent text i j := by
  unfold numberExponent at scanned
  split at scanned
  · rename_i letter
    obtain ⟨c, symbol, known⟩ := (Option.any_eq_true ..).mp letter
    refine .present symbol known ?_ (numberDigits_sound scanned)
    split
    · rename_i sign
      rcases sign with plus | minus
      · exact .plus plus
      · exact .minus minus
    · exact .absent
  · cases scanned
    exact .absent

theorem numberExponent_complete (exp : Exponent text i j) (ends : Ends text j)
    : numberExponent text i = .ok j := by
  unfold numberExponent
  cases exp with
  | absent =>
    have noLetter : ¬(text[i]?.any isExponent = true) := by
      intro letter
      cases symbol : text[i]? with
      | none =>
        rw [symbol] at letter
        cases letter
      | some c =>
        rw [symbol] at letter
        have known := ends.noExponent c symbol
        rw [Option.any_some, known] at letter
        cases letter
    rw [if_neg noLetter]
  | present symbol letter sign digits =>
    rename_i k c
    rw [symbol, Option.any_some, if_pos letter]
    have skipped :
        (if text[i + 1]? = some Ascii.plus ∨ text[i + 1]? = some Ascii.minus then i + 2
          else i + 1) = k := by
      cases sign with
      | absent =>
        obtain ⟨⟨c, first, above, -⟩, -⟩ := digits
        refine if_neg ?_
        rw [first]
        rintro (same | same)
        · cases same
          exact absurd above (by decide)
        · cases same
          exact absurd above (by decide)
      | plus plus => exact if_pos (.inl plus)
      | minus minus => exact if_pos (.inr minus)
    rw [skipped]
    exact numberDigits_complete digits ends.noDigit

theorem Exponent.stops (exp : Exponent text i j) (ends : Ends text j)
    : Stops numberDigit text i ∧ text[i]? ≠ some Ascii.point := by
  cases exp with
  | absent => exact ⟨ends.noDigit, ends.noPoint⟩
  | present symbol letter sign digits =>
    rename_i k c
    have distinct : ∀ c : UInt8, isExponent c = true →
        numberDigit c = false ∧ c ≠ Ascii.point := byte_forall (by decide +kernel)
    obtain ⟨noDigit, noPoint⟩ := distinct c letter
    constructor
    · intro other present
      rw [symbol] at present
      cases present
      exact noDigit
    · intro same
      rw [symbol] at same
      cases same
      exact noPoint rfl

theorem Frac.stops (frac : Frac text i j) (stops : Stops numberDigit text j)
    : Stops numberDigit text i := by
  cases frac with
  | absent => exact stops
  | present symbol digits =>
    intro other present
    rw [symbol] at present
    cases present
    decide

theorem numberEnd_sound (scanned : numberEnd text i = .ok j) : Number text i j := by
  unfold numberEnd at scanned
  cases integer : numberInteger text i with
  | error wrong =>
    rw [integer] at scanned
    cases scanned
  | ok b =>
    simp only [integer, Except.bind] at scanned
    cases fraction : numberFraction text b with
    | error wrong =>
      rw [fraction] at scanned
      cases scanned
    | ok c =>
      rw [fraction] at scanned
      obtain ⟨a, minus, int⟩ := numberInteger_sound integer
      exact ⟨minus, int, numberFraction_sound fraction, numberExponent_sound scanned⟩

/-- Every part of the number is all that the scan takes: the next part, or what ends the number,
starts with a byte that does not continue it. -/
theorem numberEnd_complete (number : Number text i j) (ends : Ends text j)
    : numberEnd text i = .ok j := by
  obtain ⟨minus, int, frac, exp⟩ := number
  obtain ⟨noDigit, noPoint⟩ := exp.stops ends
  unfold numberEnd
  rw [numberInteger_complete minus int (frac.stops noDigit)]
  simp only [Except.bind]
  rw [numberFraction_complete frac noDigit noPoint]
  exact numberExponent_complete exp ends

theorem Number.lt (number : Number text i j) : i < j := by
  obtain ⟨minus, int, frac, exp⟩ := number
  rename_i a b c
  have first : i ≤ a := by cases minus <;> omega
  have second : a < b := by
    cases int with
    | zero symbol => exact Nat.lt_succ_self a
    | digits head rest => exact rest.le
  have third : b ≤ c := by
    cases frac with
    | absent => exact Nat.le_refl _
    | present symbol digits =>
      have inside := digits.rest.le
      omega
  have fourth : c ≤ j := by
    cases exp with
    | absent => exact Nat.le_refl _
    | present symbol letter sign digits =>
      have inside := digits.rest.le
      cases sign <;> omega
  omega

theorem Number.head (number : Number text i j)
    : ∃ c, text[i]? = some c ∧ (c = Ascii.minus ∨ numberDigit c = true) := by
  obtain ⟨minus, int, -, -⟩ := number
  cases minus with
  | absent =>
    obtain ⟨c, symbol, range⟩ := int.first
    exact ⟨c, symbol, .inr ((numberDigit_iff c).mpr range)⟩
  | present symbol => exact ⟨_, symbol, .inl rfl⟩

end Z23.Commons
