import Mathlib.Data.List.Basic
import Mathlib.Tactic.Ring

/-!
Glob matching: the loop that falls back to the last star against the cuts of a text into the
pieces of a pattern. A cursor into the pattern or the text is what is left of it.
-/

namespace Z23.Commons.ZGlob

/-- Reads one character of a class, which may be escaped. -/
def classTakeChar : List UInt8 → UInt8 × List UInt8
  | [] => (0, [])
  | [ch] => (ch, [])
  | ch :: next :: rest => if ch = 92 then (next, rest) else (ch, next :: rest)

/-- Reads one element of a class, a character or a range, and tests it against `c`. -/
def classElementMatches (pat : List UInt8) (c : UInt8) : Bool × List UInt8 :=
  let (lo, rest) := classTakeChar pat
  match rest with
  | dash :: next :: more =>
    if dash = 45 ∧ next ≠ 93 then
      let (hi, rest) := classTakeChar (next :: more)
      (lo ≤ c && c ≤ hi, rest)
    else (c = lo, rest)
  | rest => (c = lo, rest)

/-- Reads the elements up to the closing bracket; every element takes at least one byte, so the
length of the class is fuel enough. -/
def classLoop (c : UInt8)
    : (fuel : Nat) → List UInt8 → (first matched : Bool) → Option (Bool × List UInt8)
  | 0, _, _, _ => none
  | _ + 1, [], _, _ => none
  | fuel + 1, b :: rest, first, matched =>
    if b = 93 ∧ ¬first then some (matched, rest)
    else
      let (m, rest) := classElementMatches (b :: rest) c
      classLoop c fuel rest false (m || matched)

/-- A class after its opening bracket; `none` when it is not closed. -/
def classMatch (pat : List UInt8) (c : UInt8) : Option (Bool × List UInt8) :=
  let (negate, rest) := if pat.head? = some 33 then (true, pat.tail) else (false, pat)
  (classLoop c (rest.length + 1) rest true false).map fun (matched, rest) =>
    (matched != negate, rest)

inductive ElementResult where
  | malformed
  | miss
  | hit (rest : List UInt8)
deriving DecidableEq

/-- One element other than a star against one byte of the text. -/
def matchElement (pc : UInt8) (rest : List UInt8) (sc : UInt8) : ElementResult :=
  if pc = 63 then .hit rest
  else if pc = 91 then
    match classMatch rest sc with
    | none => .malformed
    | some (m, rest) => if m then .hit rest else .miss
  else if pc = 92 then
    match rest with
    | [] => .malformed
    | pc :: rest => if pc = sc then .hit rest else .miss
  else if pc = sc then .hit rest
  else .miss

/-- The look at a class that stands in the tail changes nothing: it is no star. -/
def tailOnlyStars (pat : List UInt8) : Bool := pat.all (· = 42)

def matchLoop : (fuel : Nat) → (pat str : List UInt8) → (star : Option (List UInt8 × List UInt8))
    → Bool
  | 0, _, _, _ => false
  | _ + 1, pat, [], _ => tailOnlyStars pat
  | fuel + 1, pat, sc :: str, star =>
    -- a mismatch goes on behind the last star, which takes one byte more
    let retry :=
      match star with
      | some (afterStar, at_) => matchLoop fuel afterStar at_.tail (some (afterStar, at_.tail))
      | none => false
    match pat with
    | [] => retry
    | pc :: rest =>
      if pc = 42 then matchLoop fuel rest (sc :: str) (some (rest, sc :: str))
      else
        match matchElement pc rest sc with
        | .malformed => false
        | .hit rest => matchLoop fuel rest str star
        | .miss => retry

/-- A turn either leaves less of the pattern or moves the last star on. -/
def zglobMatchN (pat str : List UInt8) : Bool :=
  matchLoop ((str.length + 1) * (pat.length + 1) + pat.length + 1) pat str none

-- What a pattern means

inductive Element where
  | star
  | one (accepts : UInt8 → Bool)

def Element.Matches : Element → List UInt8 → Prop
  | .star, _ => True
  | .one accepts, piece => ∃ c, piece = [c] ∧ accepts c

/-- The text is cut into consecutive pieces that match the elements in order. -/
def CutInto (elements : List Element) (text : List UInt8) : Prop :=
  ∃ pieces : List (List UInt8), pieces.flatten = text
    ∧ List.Forall₂ Element.Matches elements pieces

/-- One element of a class as a range, a character being a range of its own. -/
def classRange (pat : List UInt8) : (UInt8 × UInt8) × List UInt8 :=
  let (lo, rest) := classTakeChar pat
  match rest with
  | dash :: next :: more =>
    if dash = 45 ∧ next ≠ 93 then
      let (hi, rest) := classTakeChar (next :: more)
      ((lo, hi), rest)
    else ((lo, lo), rest)
  | rest => ((lo, lo), rest)

/-- The ranges of a class up to its closing bracket. -/
def classRanges : (fuel : Nat) → List UInt8 → (first : Bool)
    → Option (List (UInt8 × UInt8) × List UInt8)
  | 0, _, _ => none
  | _ + 1, [], _ => none
  | fuel + 1, b :: rest, first =>
    if b = 93 ∧ ¬first then some ([], rest)
    else
      let (range, rest) := classRange (b :: rest)
      (classRanges fuel rest false).map fun (ranges, rest) => (range :: ranges, rest)

def inRanges (ranges : List (UInt8 × UInt8)) (c : UInt8) : Bool :=
  ranges.any fun range => range.1 ≤ c && c ≤ range.2

/-- The elements of a pattern all of whose classes are closed and which ends in no escape. -/
inductive Means : List UInt8 → List Element → Prop where
  | nil : Means [] []
  | star {rest elements} : Means rest elements → Means (42 :: rest) (.star :: elements)
  | any {rest elements} : Means rest elements → Means (63 :: rest) (.one (fun _ => true) :: elements)
  | negatedClass {pat ranges rest elements}
      : classRanges (pat.length + 1) pat true = some (ranges, rest) → Means rest elements
        → Means (91 :: 33 :: pat) (.one (fun c => !inRanges ranges c) :: elements)
  | class {pat ranges rest elements} : pat.head? ≠ some 33
      → classRanges (pat.length + 1) pat true = some (ranges, rest) → Means rest elements
        → Means (91 :: pat) (.one (inRanges ranges) :: elements)
  | escaped {c rest elements} : Means rest elements
      → Means (92 :: c :: rest) (.one (fun b => c = b) :: elements)
  | plain {c rest elements} : c ≠ 42 → c ≠ 63 → c ≠ 91 → c ≠ 92 → Means rest elements
      → Means (c :: rest) (.one (fun b => c = b) :: elements)

-- One element against one byte

theorem classElementMatches_eq (pat : List UInt8) (c : UInt8)
    : classElementMatches pat c
        = ((classRange pat).1.1 ≤ c && c ≤ (classRange pat).1.2, (classRange pat).2) := by
  have single : ∀ lo : UInt8, (decide (c = lo)) = (lo ≤ c && c ≤ lo) := by
    intro lo
    rw [Bool.eq_iff_iff, decide_eq_true_eq, Bool.and_eq_true, decide_eq_true_eq, decide_eq_true_eq]
    exact ⟨fun same => same ▸ ⟨UInt8.le_refl _, UInt8.le_refl _⟩,
      fun within => UInt8.le_antisymm within.2 within.1⟩
  unfold classElementMatches classRange
  rcases classTakeChar pat with ⟨lo, rest⟩
  simp only [single]
  rcases rest with - | ⟨dash, - | ⟨next, more⟩⟩
  · rfl
  · rfl
  · simp only []
    split <;> rfl

theorem classLoop_eq (c : UInt8) (fuel : Nat) (pat : List UInt8) (first matched : Bool)
    : classLoop c fuel pat first matched
        = (classRanges fuel pat first).map fun read => (inRanges read.1 c || matched, read.2) := by
  induction fuel generalizing pat first matched with
  | zero => rfl
  | succ fuel ih =>
    cases pat with
    | nil => rfl
    | cons b rest =>
      rw [classLoop, classRanges, classElementMatches_eq]
      split
      case isTrue => simp [inRanges]
      case isFalse =>
        simp only [ih, Option.map_map]
        congr 1
        funext read
        simp [inRanges, Bool.or_comm, Bool.or_assoc]

theorem classTakeChar_length (pat : List UInt8)
    : (classTakeChar pat).2.length ≤ pat.length - 1 := by
  rcases pat with - | ⟨ch, - | ⟨next, rest⟩⟩
  · exact Nat.le_refl _
  · exact Nat.le_refl _
  · rw [classTakeChar]
    split <;> simp

theorem classRange_length (b : UInt8) (rest : List UInt8)
    : (classRange (b :: rest)).2.length ≤ rest.length := by
  have first := classTakeChar_length (b :: rest)
  unfold classRange
  generalize classTakeChar (b :: rest) = taken at first ⊢
  obtain ⟨lo, left⟩ := taken
  rcases left with - | ⟨dash, - | ⟨next, more⟩⟩
  · exact first
  · exact first
  · simp only [List.length_cons] at first ⊢
    split
    · have second := classTakeChar_length (next :: more)
      simp only [List.length_cons] at second ⊢
      omega
    · exact first

variable {pat : List UInt8} {fuel : Nat}

theorem classRanges_length {first : Bool} {ranges : List (UInt8 × UInt8)} {left : List UInt8}
    (closed : classRanges fuel pat first = some (ranges, left))
    : left.length ≤ pat.length := by
  induction fuel generalizing pat first ranges with
  | zero => cases closed
  | succ fuel ih =>
    cases pat with
    | nil => cases closed
    | cons b rest =>
      rw [classRanges] at closed
      split at closed
      case isTrue =>
        cases closed
        exact Nat.le_succ _
      case isFalse =>
        obtain ⟨read, more, same⟩ := Option.map_eq_some_iff.mp closed
        obtain ⟨-, rfl⟩ := Prod.mk.inj same
        exact (ih more).trans ((classRange_length b rest).trans (Nat.le_succ _))

variable {pc : UInt8} {rest : List UInt8} {elements : List Element}

theorem Means.element (means : Means (pc :: rest) elements) (single : pc ≠ 42)
    : ∃ accepts more rest', elements = .one accepts :: more ∧ Means rest' more
        ∧ rest'.length ≤ rest.length
        ∧ ∀ sc, matchElement pc rest sc = if accepts sc then .hit rest' else .miss := by
  cases means with
  | star => exact absurd rfl single
  | any tail => exact ⟨_, _, rest, rfl, tail, Nat.le_refl _, fun sc => rfl⟩
  | @negatedClass pat ranges left more closed tail =>
    refine ⟨_, _, left, rfl, tail, ?_, ?_⟩
    · exact (classRanges_length closed).trans (Nat.le_succ _)
    · intro sc
      simp [matchElement, classMatch, classLoop_eq, closed]
  | @«class» pat ranges left more plain closed tail =>
    refine ⟨_, _, left, rfl, tail, ?_, ?_⟩
    · exact classRanges_length closed
    · intro sc
      simp [matchElement, classMatch, classLoop_eq, closed, plain]
  | @escaped c left more tail =>
    refine ⟨_, _, left, rfl, tail, Nat.le_succ _, ?_⟩
    intro sc
    simp [matchElement]
  | plain notStar notAny notClass notEscape tail =>
    refine ⟨_, _, rest, rfl, tail, Nat.le_refl _, ?_⟩
    intro sc
    simp [matchElement, notAny, notClass, notEscape]

-- Cuts of a text

theorem cutInto_nil {text : List UInt8} : CutInto [] text ↔ text = [] := by
  constructor
  · rintro ⟨pieces, rfl, matched⟩
    cases matched
    rfl
  · rintro rfl
    exact ⟨[], rfl, .nil⟩

theorem cutInto_star {text : List UInt8}
    : CutInto (.star :: elements) text ↔ ∃ k ≤ text.length, CutInto elements (text.drop k) := by
  constructor
  · rintro ⟨pieces, rfl, matched⟩
    obtain _ | @⟨_, piece, _, pieces, -, rest⟩ := matched
    refine ⟨piece.length, by simp, pieces, ?_, rest⟩
    rw [List.flatten_cons, List.drop_left]
  · rintro ⟨k, -, pieces, joined, rest⟩
    refine ⟨text.take k :: pieces, ?_, .cons trivial rest⟩
    rw [List.flatten_cons, joined, List.take_append_drop]

theorem cutInto_one {accepts : UInt8 → Bool} {c : UInt8} {text : List UInt8}
    : CutInto (.one accepts :: elements) (c :: text) ↔ accepts c ∧ CutInto elements text := by
  constructor
  · rintro ⟨pieces, joined, matched⟩
    obtain _ | @⟨_, piece, _, pieces, first, rest⟩ := matched
    obtain ⟨b, rfl, accepted⟩ := first
    obtain ⟨rfl, rfl⟩ := List.cons.inj joined
    exact ⟨accepted, pieces, rfl, rest⟩
  · rintro ⟨accepted, pieces, rfl, rest⟩
    exact ⟨[c] :: pieces, rfl, .cons ⟨c, rfl, accepted⟩ rest⟩

theorem not_cutInto_one_nil {accepts : UInt8 → Bool} : ¬CutInto (.one accepts :: elements) [] := by
  rintro ⟨pieces, joined, matched⟩
  obtain _ | @⟨_, piece, _, pieces, first, -⟩ := matched
  obtain ⟨b, rfl, -⟩ := first
  cases joined

def Single (element : Element) : Prop := ∃ accepts, element = .one accepts

theorem CutInto.drop_singles {singles : List Element} {text : List UInt8}
    (each : ∀ element ∈ singles, Single element) (cut : CutInto (singles ++ elements) text)
    : singles.length ≤ text.length ∧ CutInto elements (text.drop singles.length) := by
  induction singles generalizing text with
  | nil => exact ⟨Nat.zero_le _, cut⟩
  | cons element singles ih =>
    obtain ⟨accepts, rfl⟩ := each element (by simp)
    cases text with
    | nil => exact absurd cut not_cutInto_one_nil
    | cons c text =>
      obtain ⟨long, rest⟩ := ih (List.forall_mem_cons.mp each).2 (cutInto_one.mp cut).2
      exact ⟨Nat.succ_le_succ long, rest⟩

/-- The last star takes at least one byte more. -/
def Later (elements : List Element) (text : List UInt8) : Prop :=
  ∃ k, 1 ≤ k ∧ k ≤ text.length ∧ CutInto elements (text.drop k)

theorem cutInto_star_iff_later {text : List UInt8}
    : CutInto (.star :: elements) text ↔ CutInto elements text ∨ Later elements text := by
  rw [cutInto_star]
  constructor
  · rintro ⟨k, within, cut⟩
    rcases Nat.eq_zero_or_pos k with rfl | positive
    · exact .inl cut
    · exact .inr ⟨k, positive, within, cut⟩
  · rintro (cut | ⟨k, -, within, cut⟩)
    · exact ⟨0, Nat.zero_le _, cut⟩
    · exact ⟨k, within, cut⟩

theorem later_cons {c : UInt8} {text : List UInt8}
    : Later elements (c :: text) ↔ CutInto elements text ∨ Later elements text := by
  rw [← cutInto_star_iff_later, cutInto_star]
  constructor
  · rintro ⟨k, positive, within, cut⟩
    obtain ⟨n, rfl⟩ := Nat.exists_eq_add_of_le' positive
    exact ⟨n, Nat.le_of_succ_le_succ within, cut⟩
  · rintro ⟨n, within, cut⟩
    exact ⟨n + 1, Nat.succ_pos n, Nat.succ_le_succ within, cut⟩

-- The loop

/-- The last star of the loop: what follows it is in front of the present cursor by elements of
one byte each, and the text by as many bytes. -/
structure LastStar (elements : List Element) (text : List UInt8) (afterStar : List Element)
    (at_ : List UInt8) : Prop where
  singles : ∃ passed bytes, afterStar = passed ++ elements ∧ at_ = bytes ++ text
    ∧ passed.length = bytes.length ∧ ∀ element ∈ passed, Single element

variable {afterStar : List Element} {at_ : List UInt8}

/-- A star met later makes up for every byte that an earlier one could take. -/
theorem LastStar.later_star {text : List UInt8}
    (last : LastStar (.star :: elements) text afterStar at_) (later : Later afterStar at_)
    : CutInto (.star :: elements) text := by
  obtain ⟨passed, bytes, rfl, rfl, same, each⟩ := last.singles
  obtain ⟨k, -, within, cut⟩ := later
  obtain ⟨long, rest⟩ := cut.drop_singles each
  obtain ⟨n, within', cut'⟩ := cutInto_star.mp rest
  rw [List.drop_drop, List.drop_drop] at cut'
  have position : k + (passed.length + n) = bytes.length + (k + n) := by omega
  rw [position, ← List.drop_drop, List.drop_left] at cut'
  refine cutInto_star.mpr ⟨k + n, ?_, cut'⟩
  simp only [List.length_drop, List.length_append] at within' long within
  omega

theorem LastStar.not_later_nil (last : LastStar elements [] afterStar at_)
    : ¬Later afterStar at_ := by
  obtain ⟨passed, bytes, rfl, rfl, same, each⟩ := last.singles
  rintro ⟨k, positive, within, cut⟩
  have long := (cut.drop_singles each).1
  simp only [List.length_drop, List.append_nil] at long within
  omega

theorem LastStar.here (elements : List Element) (text : List UInt8)
    : LastStar elements text elements text :=
  ⟨[], [], rfl, rfl, rfl, by simp⟩

theorem LastStar.pass {accepts : UInt8 → Bool} {c : UInt8} {text : List UInt8}
    (last : LastStar (.one accepts :: elements) (c :: text) afterStar at_)
    : LastStar elements text afterStar at_ := by
  obtain ⟨passed, bytes, rfl, rfl, same, each⟩ := last.singles
  refine ⟨passed ++ [.one accepts], bytes ++ [c], by simp, by simp, by simp [same], ?_⟩
  intro element member
  rcases List.mem_append.mp member with earlier | here
  · exact each element earlier
  · exact ⟨accepts, List.mem_singleton.mp here⟩

theorem LastStar.length_le {text : List UInt8} (last : LastStar elements text afterStar at_)
    : text.length ≤ at_.length := by
  obtain ⟨passed, bytes, -, rfl, -, -⟩ := last.singles
  simp

theorem tailOnlyStars_iff (means : Means pat elements)
    : tailOnlyStars pat = true ↔ CutInto elements [] := by
  induction means with
  | nil => simp [tailOnlyStars, cutInto_nil]
  | star _ ih => simpa [tailOnlyStars, cutInto_star] using ih
  | plain notStar => simp [tailOnlyStars, notStar, not_cutInto_one_nil]
  | _ => simp [tailOnlyStars, not_cutInto_one_nil]

/-- With a star to fall back to, the loop finds a cut from here on or with a longer piece for that
star. The turns left are those of the pattern for each byte the star may still take. -/
theorem matchLoop_star_iff {bound : Nat} {str q : List UInt8} (means : Means pat elements)
    (means' : Means q afterStar) (last : LastStar elements str afterStar at_)
    (short : pat.length ≤ bound) (short' : q.length ≤ bound)
    (enough : at_.length * (bound + 1) + pat.length < fuel)
    : matchLoop fuel pat str (some (q, at_)) = true
        ↔ CutInto elements str ∨ Later afterStar at_ := by
  induction fuel generalizing pat str q at_ elements afterStar with
  | zero => exact absurd enough (Nat.not_lt_zero _)
  | succ fuel ih =>
    cases str with
    | nil =>
      rw [matchLoop, tailOnlyStars_iff means]
      simp [last.not_later_nil]
    | cons sc str =>
      have long := last.length_le
      have retry : matchLoop fuel q at_.tail (some (q, at_.tail)) = true
          ↔ Later afterStar at_ := by
        cases at_ with
        | nil => cases long
        | cons b more =>
          rw [List.length_cons, Nat.add_mul] at enough
          rw [later_cons, List.tail_cons]
          exact ih means' means' (.here _ _) short' short' (by omega)
      cases pat with
      | nil =>
        cases means
        rw [matchLoop, retry, cutInto_nil]
        simp
      | cons pc rest =>
        rw [List.length_cons] at short enough
        by_cases isStar : pc = 42
        · subst isStar
          cases means with
          | star tail =>
            have turns := Nat.mul_le_mul_right (bound + 1) long
            have next := ih tail tail (.here _ (sc :: str)) (by omega) (by omega)
              (by omega)
            rw [← cutInto_star_iff_later] at next
            rw [matchLoop, if_pos rfl, next]
            exact ⟨.inl, fun found => found.elim id last.later_star⟩
          | plain notStar => exact absurd rfl notStar
        · obtain ⟨accepts, more, rest', rfl, tail, shorter, step⟩ := means.element isStar
          rw [matchLoop, if_neg isStar, step, cutInto_one]
          by_cases accepted : accepts sc
          · have next := ih tail means' last.pass (by omega) short' (by omega)
            simpa [accepted] using next
          · simpa [accepted] using retry

theorem matchLoop_none_iff {bound : Nat} {str : List UInt8} (means : Means pat elements)
    (short : pat.length ≤ bound) (enough : (str.length + 1) * (bound + 1) + pat.length < fuel)
    : matchLoop fuel pat str none = true ↔ CutInto elements str := by
  induction fuel generalizing pat str elements with
  | zero => exact absurd enough (Nat.not_lt_zero _)
  | succ fuel ih =>
    cases str with
    | nil => rw [matchLoop, tailOnlyStars_iff means]
    | cons sc str =>
      rw [List.length_cons] at enough
      cases pat with
      | nil =>
        cases means
        simp [matchLoop, cutInto_nil]
      | cons pc rest =>
        rw [List.length_cons] at short enough
        by_cases isStar : pc = 42
        · subst isStar
          cases means with
          | star tail =>
            rw [matchLoop, if_pos rfl, cutInto_star_iff_later]
            have turns : (sc :: str).length * (bound + 1)
                ≤ (str.length + 1 + 1) * (bound + 1) :=
              Nat.mul_le_mul_right _ (Nat.le_succ _)
            have within : rest.length ≤ bound := by omega
            exact matchLoop_star_iff tail tail (.here _ _) within within (by omega)
          | plain notStar => exact absurd rfl notStar
        · obtain ⟨accepts, more, rest', rfl, tail, shorter, step⟩ := means.element isStar
          have turns : (str.length + 1) * (bound + 1) ≤ (str.length + 1 + 1) * (bound + 1) :=
            Nat.mul_le_mul_right _ (Nat.le_succ _)
          have next : matchLoop fuel rest' str none = true ↔ CutInto more str :=
            ih tail (by omega) (by omega)
          rw [matchLoop, if_neg isStar, step, cutInto_one]
          by_cases accepted : accepts sc <;> simp [accepted, next]

/-- A well formed pattern matches exactly the texts that can be cut into pieces of its elements. -/
theorem zglobMatchN_iff_cutInto {pat : List UInt8} {elements : List Element}
    (means : Means pat elements) (text : List UInt8)
    : zglobMatchN pat text = true ↔ CutInto elements text := by
  apply matchLoop_none_iff means (Nat.le_refl _)
  omega

/-- The pattern `*a[!x-z]` on a text whose first `a` does not lead to the match. -/
theorem zglobMatchN_iff_cutInto_backtracks
    : zglobMatchN [42, 97, 91, 33, 120, 45, 122, 93] [97, 120, 97, 98] = true
        ∧ CutInto [.star, .one (fun b => 97 = b), .one (fun c => !inRanges [(120, 122)] c)]
            [97, 120, 97, 98] := by
  have matched : zglobMatchN [42, 97, 91, 33, 120, 45, 122, 93] [97, 120, 97, 98] = true := by
    decide
  refine ⟨matched, (zglobMatchN_iff_cutInto (.star ?_) _).mp matched⟩
  apply Means.plain <;> try decide
  exact .negatedClass rfl .nil

end Z23.Commons.ZGlob
