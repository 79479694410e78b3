import Mathlib.Tactic.IntervalCases
import Z23.Lib.Spans

/-!
The UTF-8 decoder, which reads one character by a table of lead bytes, and the character syntax
of RFC 3629 that the table stands for.
-/

namespace Z23.Commons

open Z23.Lib.Spans

-- The decoder

inductive Utf8Error where
  | truncated
  | invalid
deriving DecidableEq, Repr

def isCont (b : UInt8) : Bool := b &&& 0xC0 == 0x80

/-- A sequence length with the range of the lead byte and that of the second byte. -/
structure LeadRule where
  first : UInt8
  last : UInt8
  n : Nat
  lo : UInt8
  hi : UInt8
deriving DecidableEq, Repr

def leadRules : List LeadRule :=
  [⟨0xC2, 0xDF, 2, 0x80, 0xBF⟩,
    ⟨0xE0, 0xE0, 3, 0xA0, 0xBF⟩,
    ⟨0xED, 0xED, 3, 0x80, 0x9F⟩,
    ⟨0xE1, 0xEF, 3, 0x80, 0xBF⟩,
    ⟨0xF0, 0xF0, 4, 0x90, 0xBF⟩,
    ⟨0xF4, 0xF4, 4, 0x80, 0x8F⟩,
    ⟨0xF1, 0xF3, 4, 0x80, 0xBF⟩]

def classifyLeadByte (b0 : UInt8) : Option LeadRule :=
  leadRules.find? fun rule => decide (rule.first ≤ b0) && decide (b0 ≤ rule.last)

/-- The range of the second byte and the continuation bytes after it. -/
def checkTailBytes (str : List UInt8) (rule : LeadRule) (b1 : UInt8) : Bool :=
  if b1 < rule.lo ∨ rule.hi < b1 then false else ((str.take rule.n).drop 2).all isCont

def decodeCodePoint (b0 b1 : UInt8) (str : List UInt8) (n : Nat) : UInt32 :=
  let b2 := str.getD 2 0
  let b3 := str.getD 3 0
  match n with
  | 2 => ((b0 &&& 0x1F).toUInt32 <<< 6) ||| (b1 &&& 0x3F).toUInt32
  | 3 => ((b0 &&& 0x0F).toUInt32 <<< 12) ||| ((b1 &&& 0x3F).toUInt32 <<< 6) |||
      (b2 &&& 0x3F).toUInt32
  | _ => ((b0 &&& 0x07).toUInt32 <<< 18) ||| ((b1 &&& 0x3F).toUInt32 <<< 12) |||
      ((b2 &&& 0x3F).toUInt32 <<< 6) ||| (b3 &&& 0x3F).toUInt32

/-- The code point at the head of the bytes and how many bytes it takes. -/
def decodeN (str : List UInt8) : Except Utf8Error (UInt32 × Nat) :=
  match str with
  | [] => .error .truncated
  | b0 :: _ =>
    if b0 ≤ 0x7F then .ok (b0.toUInt32, 1)
    else
      match classifyLeadByte b0 with
      | none => .error .invalid
      | some rule =>
        if str.length < rule.n then .error .truncated
        else if checkTailBytes str rule (str.getD 1 0) = false then .error .invalid
        else .ok (decodeCodePoint b0 (str.getD 1 0) str rule.n, rule.n)

-- The syntax of RFC 3629

/-- A byte of the range stands at the position. -/
def InRange (lo hi : UInt8) (text : List UInt8) (i : Nat) : Prop :=
  ∃ b, text[i]? = some b ∧ lo ≤ b ∧ b ≤ hi

/-- `UTF8-tail`. -/
abbrev Tail : List UInt8 → Nat → Prop := InRange 0x80 0xBF

/-- `UTF8-char`: the bytes from one position up to another are one character. -/
inductive Utf8Char (text : List UInt8) (i : Nat) : Nat → Prop where
  | one (lead : InRange 0x00 0x7F text i) : Utf8Char text i (i + 1)
  | two (lead : InRange 0xC2 0xDF text i) (second : Tail text (i + 1)) : Utf8Char text i (i + 2)
  | e0 (lead : InRange 0xE0 0xE0 text i) (second : InRange 0xA0 0xBF text (i + 1))
      (third : Tail text (i + 2)) : Utf8Char text i (i + 3)
  | e1ec (lead : InRange 0xE1 0xEC text i) (second : Tail text (i + 1))
      (third : Tail text (i + 2)) : Utf8Char text i (i + 3)
  | ed (lead : InRange 0xED 0xED text i) (second : InRange 0x80 0x9F text (i + 1))
      (third : Tail text (i + 2)) : Utf8Char text i (i + 3)
  | eeef (lead : InRange 0xEE 0xEF text i) (second : Tail text (i + 1))
      (third : Tail text (i + 2)) : Utf8Char text i (i + 3)
  | f0 (lead : InRange 0xF0 0xF0 text i) (second : InRange 0x90 0xBF text (i + 1))
      (third : Tail text (i + 2)) (fourth : Tail text (i + 3)) : Utf8Char text i (i + 4)
  | f1f3 (lead : InRange 0xF1 0xF3 text i) (second : Tail text (i + 1))
      (third : Tail text (i + 2)) (fourth : Tail text (i + 3)) : Utf8Char text i (i + 4)
  | f4 (lead : InRange 0xF4 0xF4 text i) (second : InRange 0x80 0x8F text (i + 1))
      (third : Tail text (i + 2)) (fourth : Tail text (i + 3)) : Utf8Char text i (i + 4)

/-- `UTF8-octets` from one position up to another. -/
inductive Utf8Octets (text : List UInt8) : Nat → Nat → Prop where
  | nil (i : Nat) : Utf8Octets text i i
  | cons {i j k : Nat} (char : Utf8Char text i j) (rest : Utf8Octets text j k)
      : Utf8Octets text i k

-- The table and the syntax

variable {text : List UInt8} {i j : Nat}

theorem byte_forall {P : UInt8 → Prop} (all : ∀ n : Fin 256, P (UInt8.ofNat n)) (b : UInt8)
    : P b := by
  have named := all ⟨b.toNat, b.toNat_lt⟩
  rwa [UInt8.ofNat_toNat] at named

theorem isCont_iff (b : UInt8) : isCont b = true ↔ 0x80 ≤ b ∧ b ≤ 0xBF := by
  revert b
  apply byte_forall
  decide +kernel

/-- A character that starts with a byte of the row and goes on as the row says. -/
structure Admits (rule : LeadRule) (text : List UInt8) (i : Nat) : Prop where
  lead : ∃ b, text[i]? = some b ∧ classifyLeadByte b = some rule
  second : InRange rule.lo rule.hi text (i + 1)
  tails : ∀ k, 2 ≤ k → k < rule.n → Tail text (i + k)

theorem lead_range {b : UInt8} {rule : LeadRule} (classified : classifyLeadByte b = some rule)
    (symbol : text[i]? = some b) : InRange rule.first rule.last text i := by
  have inside := List.find?_some classified
  simp only [Bool.and_eq_true, decide_eq_true_eq] at inside
  exact ⟨b, symbol, inside⟩

theorem lead_e1ef {b : UInt8} (classified : classifyLeadByte b = some ⟨0xE1, 0xEF, 3, 0x80, 0xBF⟩)
    : 0xE1 ≤ b ∧ b ≤ 0xEC ∨ 0xEE ≤ b ∧ b ≤ 0xEF := by
  revert b
  apply byte_forall
  decide +kernel

theorem Admits.utf8Char {rule : LeadRule} (admits : Admits rule text i)
    : Utf8Char text i (i + rule.n) := by
  obtain ⟨⟨b, symbol, classified⟩, second, tails⟩ := admits
  have lead := lead_range classified symbol
  have member : rule ∈ leadRules := List.mem_of_find?_eq_some classified
  simp only [leadRules, List.mem_cons, List.not_mem_nil, or_false] at member
  rcases member with rfl | rfl | rfl | rfl | rfl | rfl | rfl
  · exact .two lead second
  · exact .e0 lead second (tails 2 (by decide) (by decide))
  · exact .ed lead second (tails 2 (by decide) (by decide))
  · rcases lead_e1ef classified with low | high
    · exact .e1ec ⟨b, symbol, low⟩ second (tails 2 (by decide) (by decide))
    · exact .eeef ⟨b, symbol, high⟩ second (tails 2 (by decide) (by decide))
  · exact .f0 lead second (tails 2 (by decide) (by decide)) (tails 3 (by decide) (by decide))
  · exact .f4 lead second (tails 2 (by decide) (by decide)) (tails 3 (by decide) (by decide))
  · exact .f1f3 lead second (tails 2 (by decide) (by decide)) (tails 3 (by decide) (by decide))

/-- The row a range of lead bytes belongs to. -/
def rowOf (lo hi : UInt8) (rule : LeadRule) : Prop :=
  ∀ b : UInt8, lo ≤ b → b ≤ hi → classifyLeadByte b = some rule

theorem InRange.classified {lo hi : UInt8} {rule : LeadRule} (row : rowOf lo hi rule)
    (lead : InRange lo hi text i) : ∃ b, text[i]? = some b ∧ classifyLeadByte b = some rule := by
  obtain ⟨b, symbol, above, below⟩ := lead
  exact ⟨b, symbol, row b above below⟩

theorem tails_two {n : Nat} (short : n = 2) (k : Nat) (from_ : 2 ≤ k) (below : k < n)
    : Tail text (i + k) := by
  omega

theorem tails_three {n : Nat} (size : n = 3) (third : Tail text (i + 2)) (k : Nat)
    (from_ : 2 ≤ k) (below : k < n) : Tail text (i + k) := by
  have only : k = 2 := by omega
  rw [only]
  exact third

theorem tails_four {n : Nat} (size : n = 4) (third : Tail text (i + 2))
    (fourth : Tail text (i + 3)) (k : Nat) (from_ : 2 ≤ k) (below : k < n)
    : Tail text (i + k) := by
  have either : k = 2 ∨ k = 3 := by omega
  rcases either with rfl | rfl
  · exact third
  · exact fourth

theorem Utf8Char.admitted (char : Utf8Char text i j)
    : (InRange 0x00 0x7F text i ∧ j = i + 1) ∨ ∃ rule, Admits rule text i ∧ j = i + rule.n := by
  cases char with
  | one lead => exact .inl ⟨lead, rfl⟩
  | two lead second =>
    have row : rowOf 0xC2 0xDF ⟨0xC2, 0xDF, 2, 0x80, 0xBF⟩ := byte_forall (by decide +kernel)
    exact .inr ⟨_, ⟨lead.classified row, second, tails_two rfl⟩, rfl⟩
  | e0 lead second third =>
    have row : rowOf 0xE0 0xE0 ⟨0xE0, 0xE0, 3, 0xA0, 0xBF⟩ := byte_forall (by decide +kernel)
    exact .inr ⟨_, ⟨lead.classified row, second, tails_three rfl third⟩, rfl⟩
  | e1ec lead second third =>
    have row : rowOf 0xE1 0xEC ⟨0xE1, 0xEF, 3, 0x80, 0xBF⟩ := byte_forall (by decide +kernel)
    exact .inr ⟨_, ⟨lead.classified row, second, tails_three rfl third⟩, rfl⟩
  | ed lead second third =>
    have row : rowOf 0xED 0xED ⟨0xED, 0xED, 3, 0x80, 0x9F⟩ := byte_forall (by decide +kernel)
    exact .inr ⟨_, ⟨lead.classified row, second, tails_three rfl third⟩, rfl⟩
  | eeef lead second third =>
    have row : rowOf 0xEE 0xEF ⟨0xE1, 0xEF, 3, 0x80, 0xBF⟩ := byte_forall (by decide +kernel)
    exact .inr ⟨_, ⟨lead.classified row, second, tails_three rfl third⟩, rfl⟩
  | f0 lead second third fourth =>
    have row : rowOf 0xF0 0xF0 ⟨0xF0, 0xF0, 4, 0x90, 0xBF⟩ := byte_forall (by decide +kernel)
    exact .inr ⟨_, ⟨lead.classified row, second, tails_four rfl third fourth⟩, rfl⟩
  | f1f3 lead second third fourth =>
    have row : rowOf 0xF1 0xF3 ⟨0xF1, 0xF3, 4, 0x80, 0xBF⟩ := byte_forall (by decide +kernel)
    exact .inr ⟨_, ⟨lead.classified row, second, tails_four rfl third fourth⟩, rfl⟩
  | f4 lead second third fourth =>
    have row : rowOf 0xF4 0xF4 ⟨0xF4, 0xF4, 4, 0x80, 0x8F⟩ := byte_forall (by decide +kernel)
    exact .inr ⟨_, ⟨lead.classified row, second, tails_four rfl third fourth⟩, rfl⟩

theorem two_le_of_classified {b : UInt8} {rule : LeadRule}
    (classified : classifyLeadByte b = some rule) : 2 ≤ rule.n := by
  have member : rule ∈ leadRules := List.mem_of_find?_eq_some classified
  have all : ∀ rule ∈ leadRules, 2 ≤ rule.n := by decide
  exact all rule member

theorem InRange.move {lo hi : UInt8} {other : List UInt8} (range : InRange lo hi text i)
    (same : ∀ b, text[i]? = some b → other[j]? = some b) : InRange lo hi other j := by
  obtain ⟨b, symbol, inside⟩ := range
  exact ⟨b, same b symbol, inside⟩

theorem Utf8Char.move {other : List UInt8} {n : Nat} (char : Utf8Char text i (i + n))
    (same : ∀ k b, k < n → text[i + k]? = some b → other[j + k]? = some b)
    : Utf8Char other j (j + n) := by
  rcases char.admitted with ⟨lead, size⟩ | ⟨rule, admits, size⟩
  · have one : n = 1 := by omega
    subst one
    exact .one (lead.move fun b symbol => same 0 b Nat.one_pos symbol)
  · have whole : n = rule.n := by omega
    subst whole
    obtain ⟨⟨b, symbol, classified⟩, second, tails⟩ := admits
    have two := two_le_of_classified classified
    have moved : Admits rule other j :=
      { lead := ⟨b, same 0 b (by omega) symbol, classified⟩
        second := second.move fun b symbol => same 1 b (by omega) symbol
        tails := fun k low high =>
          (tails k low high).move fun b symbol => same k b high symbol }
    exact moved.utf8Char

-- What the decoder accepts

variable {str : List UInt8} {n : Nat}

theorem checkTailBytes_iff {rule : LeadRule} (two : 2 ≤ rule.n) (long : rule.n ≤ str.length)
    : checkTailBytes str rule (str.getD 1 0) = true ↔
      InRange rule.lo rule.hi str 1 ∧ ∀ k, 2 ≤ k → k < rule.n → Tail str k := by
  have second : str[1]? = some (str.getD 1 0) := by
    rw [List.getD_eq_getElem?_getD, List.getElem?_eq_getElem (by omega)]
    rfl
  have range : InRange rule.lo rule.hi str 1 ↔
      ¬(str.getD 1 0 < rule.lo ∨ rule.hi < str.getD 1 0) := by
    unfold InRange
    rw [second]
    simp [not_or, UInt8.not_lt]
  have conts : ((str.take rule.n).drop 2).all isCont = true ↔
      ∀ k, 2 ≤ k → k < rule.n → Tail str k := by
    rw [List.all_eq_true]
    constructor
    · intro all k low high
      have symbol : str[k]? = some (str.get ⟨k, by omega⟩) := List.getElem?_eq_getElem (by omega)
      have held : str.get ⟨k, by omega⟩ ∈ (str.take rule.n).drop 2 := by
        refine List.mem_iff_getElem?.mpr ⟨k - 2, ?_⟩
        rw [List.getElem?_drop, List.getElem?_take]
        have position : 2 + (k - 2) = k := by omega
        rw [position, if_pos high, symbol]
      exact ⟨_, symbol, (isCont_iff _).mp (all _ held)⟩
    · intro tails b held
      obtain ⟨at_, found⟩ := List.mem_iff_getElem?.mp held
      rw [List.getElem?_drop, List.getElem?_take] at found
      split at found
      · rename_i inside
        obtain ⟨c, symbol, range⟩ := tails (2 + at_) (by omega) inside
        rw [found] at symbol
        cases symbol
        exact (isCont_iff b).mpr range
      · cases found
  unfold checkTailBytes
  rw [range, ← conts]
  split
  · rename_i outside
    constructor
    · intro refused
      cases refused
    · intro both
      exact absurd outside both.1
  · rename_i inside
    exact ⟨fun all => ⟨inside, all⟩, fun both => both.2⟩

theorem ascii_iff (b : UInt8) : b ≤ 0x7F ↔ b < 0x80 := by
  rw [UInt8.le_iff_toNat_le, UInt8.lt_iff_toNat_lt]
  exact Nat.lt_succ_iff.symm

theorem decodeN_ascii {b0 : UInt8} {rest : List UInt8} (ascii : b0 ≤ 0x7F)
    : decodeN (b0 :: rest) = .ok (b0.toUInt32, 1) := by
  unfold decodeN
  simp only
  rw [if_pos ascii]

theorem zero_le_byte (b : UInt8) : 0x00 ≤ b := by
  rw [UInt8.le_iff_toNat_le]
  exact Nat.zero_le _

theorem decodeN_sound {cp : UInt32} (decoded : decodeN str = .ok (cp, n))
    : Utf8Char str 0 n := by
  unfold decodeN at decoded
  cases str with
  | nil => cases decoded
  | cons b0 rest =>
    simp only at decoded
    split at decoded
    · rename_i ascii
      cases decoded
      exact .one ⟨b0, rfl, zero_le_byte b0, ascii⟩
    · split at decoded
      · cases decoded
      · rename_i rule classified
        split at decoded
        · cases decoded
        · rename_i long
          split at decoded
          · cases decoded
          · rename_i checked
            cases decoded
            have two := two_le_of_classified classified
            obtain ⟨second, tails⟩ :=
              (checkTailBytes_iff two (Nat.le_of_not_lt long)).mp (Bool.of_not_eq_false checked)
            have admits : Admits rule (b0 :: rest) 0 :=
              { lead := ⟨b0, rfl, classified⟩
                second := second
                tails := fun k low high => by simpa using tails k low high }
            simpa using admits.utf8Char

theorem not_ascii_of_classified {b : UInt8} {rule : LeadRule}
    (classified : classifyLeadByte b = some rule) : ¬b ≤ 0x7F := by
  intro ascii
  have none : ∀ b : UInt8, b ≤ 0x7F → classifyLeadByte b = none := byte_forall (by decide +kernel)
  rw [none b ascii] at classified
  cases classified

theorem Admits.le_length {rule : LeadRule} (admits : Admits rule str 0)
    : rule.n ≤ str.length := by
  obtain ⟨⟨b, symbol, classified⟩, second, tails⟩ := admits
  have two := two_le_of_classified classified
  rcases Nat.lt_or_ge 2 rule.n with more | exact_
  · obtain ⟨c, last, -⟩ := tails (rule.n - 1) (by omega) (by omega)
    obtain ⟨inside, -⟩ := List.getElem?_eq_some_iff.mp last
    omega
  · obtain ⟨c, last, -⟩ := second
    obtain ⟨inside, -⟩ := List.getElem?_eq_some_iff.mp last
    omega

theorem decodeN_complete (char : Utf8Char str 0 n) : ∃ cp, decodeN str = .ok (cp, n) := by
  rcases char.admitted with ⟨⟨b, symbol, -, ascii⟩, size⟩ | ⟨rule, admits, size⟩
  · cases str with
    | nil => cases symbol
    | cons b0 rest =>
      cases symbol
      rw [size]
      exact ⟨_, decodeN_ascii ascii⟩
  · have long := admits.le_length
    obtain ⟨⟨b, symbol, classified⟩, second, tails⟩ := admits
    cases str with
    | nil => cases symbol
    | cons b0 rest =>
      cases symbol
      have two := two_le_of_classified classified
      have checked := (checkTailBytes_iff two long).mpr
        ⟨second, fun k low high => by simpa using tails k low high⟩
      unfold decodeN
      simp only
      rw [if_neg (not_ascii_of_classified classified), classified]
      simp only
      rw [if_neg (Nat.not_lt.mpr long), if_neg (ne_false_of_eq_true checked), size, Nat.zero_add]
      exact ⟨_, rfl⟩

-- Characters of a slice

variable {stop : Nat}

theorem Utf8Char.lt (char : Utf8Char text i j) : i < j := by
  cases char <;> omega

theorem Utf8Octets.le (octets : Utf8Octets text i j) : i ≤ j := by
  induction octets with
  | nil i => exact Nat.le_refl i
  | cons char rest ih => exact Nat.le_trans (Nat.le_of_lt char.lt) ih

theorem Utf8Char.le_length (char : Utf8Char str 0 n) : n ≤ str.length := by
  rcases char.admitted with ⟨⟨b, symbol, -⟩, size⟩ | ⟨rule, admits, size⟩
  · obtain ⟨inside, -⟩ := List.getElem?_eq_some_iff.mp symbol
    omega
  · have long := admits.le_length
    omega

theorem getElem?_slice (k : Nat)
    : ((text.drop i).take (stop - i))[k]? = if k < stop - i then text[i + k]? else none := by
  rw [List.getElem?_take, List.getElem?_drop]

theorem decodeN_slice_sound {cp : UInt32}
    (decoded : decodeN ((text.drop i).take (stop - i)) = .ok (cp, n))
    : Utf8Char text i (i + n) ∧ i + n ≤ stop := by
  have char := decodeN_sound decoded
  have some_ := char.lt
  have short := char.le_length
  rw [List.length_take] at short
  refine ⟨?_, by omega⟩
  rw [← Nat.zero_add n] at char
  refine char.move ?_
  intro k b inside symbol
  rw [Nat.zero_add, getElem?_slice, if_pos (by omega)] at symbol
  exact symbol

theorem decodeN_slice_complete (char : Utf8Char text i j) (inside : j ≤ stop)
    : ∃ cp, decodeN ((text.drop i).take (stop - i)) = .ok (cp, j - i) := by
  have proper := char.lt
  apply decodeN_complete
  have whole : j = i + (j - i) := by omega
  rw [whole] at char
  rw [← Nat.zero_add (j - i)]
  refine char.move ?_
  intro k b below symbol
  rw [Nat.zero_add, getElem?_slice, if_pos (by omega)]
  exact symbol

theorem Utf8Char.ascii_end {b : UInt8} (char : Utf8Char text i j) (symbol : text[i]? = some b)
    (ascii : b < 0x80) : j = i + 1 := by
  rcases char.admitted with ⟨-, single⟩ | ⟨rule, admits, -⟩
  · exact single
  · obtain ⟨b', symbol', classified⟩ := admits.lead
    rw [symbol] at symbol'
    cases symbol'
    exact absurd ((ascii_iff b).mpr ascii) (not_ascii_of_classified classified)

theorem Utf8Octets.ascii {b : UInt8} (octets : Utf8Octets text i j) (proper : i < j)
    (symbol : text[i]? = some b) (ascii : b < 0x80) : Utf8Octets text (i + 1) j := by
  cases octets with
  | nil => exact absurd proper (Nat.lt_irrefl i)
  | cons char rest =>
    rw [char.ascii_end symbol ascii] at rest
    exact rest

theorem Utf8Char.high (char : Utf8Char text i j) {b : UInt8} (symbol : text[i]? = some b)
    (wide : ¬b < 0x80) (k : Nat) (low : i ≤ k) (below : k < j)
    : ∃ c, text[k]? = some c ∧ 0x80 ≤ c := by
  rcases char.admitted with ⟨⟨b', symbol', -, ascii⟩, -⟩ | ⟨rule, admits, size⟩
  · rw [symbol] at symbol'
    cases symbol'
    exact absurd ((ascii_iff b).mp ascii) wide
  · obtain ⟨⟨b', symbol', classified⟩, ⟨c, second, lo, -⟩, tails⟩ := admits
    have seconds : ∀ rule ∈ leadRules, 0x80 ≤ rule.lo := by decide
    rcases Nat.lt_or_ge k (i + 2) with near | far
    · rcases Nat.eq_or_lt_of_le low with rfl | next
      · exact ⟨b, symbol, UInt8.not_lt.mp wide⟩
      · have here : k = i + 1 := by omega
        rw [here]
        exact ⟨c, second, UInt8.le_trans (seconds rule (List.mem_of_find?_eq_some classified)) lo⟩
    · obtain ⟨d, tail, above, -⟩ := tails (k - i) (by omega) (by omega)
      rw [Nat.add_sub_cancel' low] at tail
      exact ⟨d, tail, above⟩

end Z23.Commons
