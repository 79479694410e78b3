import Mathlib.Algebra.Order.Ring.Nat
import Mathlib.Data.List.Induction
import Mathlib.Data.Nat.Bitwise
import Mathlib.Tactic.Ring
import Z23.Lib.Bytes

/-!
Big-endian byte strings as numbers, and the groups of a fixed number of bits that such a string
splits into, counted from its first bit.
-/

namespace Z23.Lib.BitGroups

open Z23.Lib.Bytes

-- Big-endian bytes

def natBE (bytes : List UInt8) : Nat := natLE bytes.reverse

/-- The `width` low bytes of a number, most significant first. -/
def bytesBE (width value : Nat) : List UInt8 :=
  (List.range width).map fun at_ => UInt8.ofNat (value / 256 ^ (width - at_ - 1))

@[simp]
theorem length_bytesBE (width value : Nat) : (bytesBE width value).length = width := by
  simp [bytesBE]

theorem bytesBE_succ (width value : Nat)
    : bytesBE (width + 1) value = bytesBE width (value / 256) ++ [UInt8.ofNat value] := by
  rw [bytesBE, List.range_succ, List.map_append, bytesBE]
  congr 1
  · refine List.map_congr_left fun at_ member => ?_
    have low := List.mem_range.mp member
    rw [Nat.div_div_eq_div_mul, ← Nat.pow_succ', show (width - at_ - 1).succ = width + 1 - at_ - 1
      by omega]
  · simp

theorem bytesBE_eq_reverse (width value : Nat)
    : bytesBE width value = (bytesLE width value).reverse := by
  induction width generalizing value with
  | zero => rfl
  | succ width ih => rw [bytesBE_succ, ih, bytesLE, List.reverse_cons]

variable {width : Nat}

theorem natBE_bytesBE {value : Nat} (fits : value < 256 ^ width)
    : natBE (bytesBE width value) = value := by
  rw [natBE, bytesBE_eq_reverse, List.reverse_reverse, natLE_bytesLE fits]

theorem bytesBE_inj {a b : Nat} (aFits : a < 256 ^ width) (bFits : b < 256 ^ width)
    (same : bytesBE width a = bytesBE width b) : a = b := by
  rw [← natBE_bytesBE aFits, same, natBE_bytesBE bFits]

theorem bytesBE_zero (width : Nat) : bytesBE width 0 = List.replicate width 0 := by
  simp [bytesBE, List.map_const']

theorem all_bytesBE_zero {value : Nat} (fits : value < 256 ^ width)
    : (bytesBE width value).all (· == 0) = true ↔ value = 0 := by
  constructor
  · intro all
    refine bytesBE_inj fits (Nat.pow_pos (by decide)) ?_
    rw [bytesBE_zero, List.eq_replicate_iff]
    refine ⟨length_bytesBE width value, fun byte member => ?_⟩
    exact beq_iff_eq.mp (List.all_eq_true.mp all byte member)
  · rintro rfl
    rw [bytesBE_zero]
    simp

theorem natBE_append (bytes : List UInt8) (byte : UInt8)
    : natBE (bytes ++ [byte]) = natBE bytes * 256 + byte.toNat := by
  simp only [natBE, List.reverse_append, List.reverse_singleton, List.singleton_append, natLE]
  omega

theorem natBE_cons (byte : UInt8) (bytes : List UInt8)
    : natBE (byte :: bytes) = byte.toNat * 256 ^ bytes.length + natBE bytes := by
  induction bytes using List.reverseRecOn with
  | nil => simp [natBE, natLE]
  | append_singleton bytes last ih =>
    rw [← List.cons_append, natBE_append, ih, natBE_append, List.length_append,
      List.length_singleton, Nat.pow_succ]
    ring

theorem natBE_lt (bytes : List UInt8) : natBE bytes < 256 ^ bytes.length := by
  rw [natBE, ← List.length_reverse]
  exact natLE_lt bytes.reverse

theorem bytesBE_natBE {bytes : List UInt8} (length : bytes.length = width)
    : bytesBE width (natBE bytes) = bytes := by
  rw [← List.length_reverse] at length
  rw [natBE, bytesBE_eq_reverse, ← length, bytesLE_natLE, List.reverse_reverse]

theorem zipWith_xor_bytesBE (width a b : Nat)
    : List.zipWith (· ^^^ ·) (bytesBE width a) (bytesBE width b) = bytesBE width (a ^^^ b) := by
  rw [bytesBE, bytesBE, bytesBE, List.zipWith_map, List.zipWith_self]
  refine List.map_congr_left fun at_ _ => ?_
  rw [show (256 : Nat) = 2 ^ 8 from rfl, ← Nat.pow_mul, Nat.xor_div_two_pow, UInt8.ofNat_xor]

-- Byte order

/-- Whether `memcmp` of two strings of one length is negative. -/
def memcmpLt : List UInt8 → List UInt8 → Bool
  | a :: as, b :: bs => if a < b then true else if b < a then false else memcmpLt as bs
  | _, _ => false

theorem memcmpLt_cons_lt {a b : UInt8} (below : a < b) (as bs : List UInt8)
    : memcmpLt (a :: as) (b :: bs) = true :=
  if_pos below

theorem memcmpLt_cons_gt {a b : UInt8} (above : b < a) (as bs : List UInt8)
    : memcmpLt (a :: as) (b :: bs) = false := by
  rw [memcmpLt, if_neg (UInt8.lt_asymm above), if_pos above]

theorem memcmpLt_cons_self (a : UInt8) (as bs : List UInt8)
    : memcmpLt (a :: as) (a :: bs) = memcmpLt as bs := by
  rw [memcmpLt, if_neg (UInt8.lt_irrefl a), if_neg (UInt8.lt_irrefl a)]

theorem byte_trichotomy (a b : UInt8) : a < b ∨ a = b ∨ b < a := by
  rcases Nat.lt_trichotomy a.toNat b.toNat with below | same | above
  · exact .inl (UInt8.lt_iff_toNat_lt.mpr below)
  · exact .inr (.inl (UInt8.toNat_inj.mp same))
  · exact .inr (.inr (UInt8.lt_iff_toNat_lt.mpr above))

variable {as bs : List UInt8}

theorem memcmpLt_asymm (less : memcmpLt as bs = true)
    : memcmpLt bs as = false := by
  induction as generalizing bs with
  | nil => simp [memcmpLt] at less
  | cons a as ih =>
    cases bs with
    | nil => simp [memcmpLt] at less
    | cons b bs =>
      rcases byte_trichotomy a b with below | rfl | above
      · exact memcmpLt_cons_gt below bs as
      · rw [memcmpLt_cons_self] at less ⊢
        exact ih less
      · rw [memcmpLt_cons_gt above] at less
        cases less

theorem memcmpLt_irrefl (bytes : List UInt8) : memcmpLt bytes bytes = false := by
  induction bytes with
  | nil => rfl
  | cons byte bytes ih => rw [memcmpLt_cons_self, ih]

/-- Strings of one length are told apart by their numbers. -/
theorem natBE_inj (length : as.length = bs.length) (same : natBE as = natBE bs)
    : as = bs := by
  rw [← bytesBE_natBE length, same, bytesBE_natBE rfl]

/-- The order of strings that begin with different numbers is that of the numbers. -/
theorem memcmpLt_of_natBE (length : as.length = bs.length) (less : natBE as < natBE bs)
    (aRest bRest : List UInt8)
    : memcmpLt (as ++ aRest) (bs ++ bRest) = true := by
  induction as generalizing bs with
  | nil =>
    rw [List.eq_nil_of_length_eq_zero length.symm] at less
    exact absurd less (lt_irrefl _)
  | cons a as ih =>
    cases bs with
    | nil => simp at length
    | cons b bs =>
      have lengths : as.length = bs.length := by simpa using length
      have aLow := natBE_lt as
      have bLow := natBE_lt bs
      rw [natBE_cons, natBE_cons, lengths] at less
      rw [lengths] at aLow
      rw [List.cons_append, List.cons_append]
      rcases byte_trichotomy a b with below | rfl | above
      · exact memcmpLt_cons_lt below _ _
      · rw [memcmpLt_cons_self]
        exact ih lengths (by omega)
      · have step : (b.toNat + 1) * 256 ^ bs.length ≤ a.toNat * 256 ^ bs.length :=
          Nat.mul_le_mul_right _ (UInt8.lt_iff_toNat_lt.mp above)
        rw [Nat.add_mul, Nat.one_mul] at step
        omega

/-- Strings of one length are ordered as their numbers. -/
theorem memcmpLt_iff_natBE {x y : List UInt8} (length : x.length = y.length)
    : memcmpLt x y = true ↔ natBE x < natBE y := by
  have forward : ∀ {a b : List UInt8}, a.length = b.length → natBE a < natBE b →
      memcmpLt a b = true := by
    intro a b same below
    simpa using memcmpLt_of_natBE same below [] []
  constructor
  · intro below
    rcases Nat.lt_trichotomy (natBE x) (natBE y) with less | same | more
    · exact less
    · rw [natBE_inj length same, memcmpLt_irrefl] at below
      cases below
    · rw [memcmpLt_asymm (forward length.symm more)] at below
      cases below
  · exact forward length

/-- A piece of a string of pieces of one length. -/
theorem slice_flatMap {α : Type} {write : α → List UInt8}
    (size : ∀ value, (write value).length = width) (values : List α) {place : Nat}
    (within : place < values.length)
    : ((values.flatMap write).drop (width * place)).take width
        = write (values.get ⟨place, within⟩) := by
  induction values generalizing place with
  | nil => simp at within
  | cons value values ih =>
    rw [List.flatMap_cons]
    cases place with
    | zero =>
      rw [Nat.mul_zero, List.drop_zero, ← size value, List.take_left]
      rfl
    | succ place =>
      rw [Nat.mul_succ, Nat.add_comm, ← List.drop_drop, ← size value, List.drop_left, size value]
      exact ih (Nat.lt_of_succ_lt_succ within)

-- Groups of bits

/-- The group at a place of a string of `total` bits, given by its value. -/
def group (width total value place : Nat) : Nat :=
  value / 2 ^ (total - width * (place + 1)) % 2 ^ width

def groups (width total value : Nat) : List Nat :=
  (List.range (total / width)).map (group width total value)

/-- The value of a string of groups. -/
def joinGroups (width : Nat) (gs : List Nat) : Nat :=
  gs.foldl (fun value g => value * 2 ^ width + g) 0

theorem group_lt (width total value place : Nat) : group width total value place < 2 ^ width :=
  Nat.mod_lt _ (Nat.two_pow_pos width)

theorem groups_lt {total value g : Nat} (member : g ∈ groups width total value)
    : g < 2 ^ width := by
  obtain ⟨place, -, rfl⟩ := List.mem_map.mp member
  exact group_lt _ _ _ _

theorem length_groups {count : Nat} (positive : 0 < width) (value : Nat)
    : (groups width (width * count) value).length = count := by
  rw [groups, List.length_map, List.length_range, Nat.mul_div_cancel_left _ positive]

/-- Bits after a group leave it as it is. -/
theorem group_append {total place : Nat} (within : width * (place + 1) ≤ total) {more low : Nat}
    (fits : low < 2 ^ more) (value : Nat)
    : group width (total + more) (value * 2 ^ more + low) place
        = group width total value place := by
  have high : (value * 2 ^ more + low) / 2 ^ more = value := by
    rw [Nat.mul_comm, Nat.mul_add_div (Nat.two_pow_pos more), Nat.div_eq_of_lt fits, Nat.add_zero]
  rw [group, group, show total + more - width * (place + 1)
      = more + (total - width * (place + 1)) by omega, Nat.pow_add, ← Nat.div_div_eq_div_mul, high]

/-- The group that ends a string, whatever bits came before it. -/
theorem group_last {place : Nat} (value : Nat) {g : Nat} (fits : g < 2 ^ width)
    : group width (width * (place + 1)) (value * 2 ^ width + g) place = g := by
  rw [group, Nat.sub_self, Nat.pow_zero, Nat.div_one, Nat.mul_comm, Nat.mul_add_mod,
    Nat.mod_eq_of_lt fits]

theorem group_xor (width total a b place : Nat)
    : group width total (a ^^^ b) place
        = group width total a place ^^^ group width total b place := by
  rw [group, Nat.xor_div_two_pow, Nat.xor_mod_two_pow, group, group]

theorem group_zero (width total place : Nat) : group width total 0 place = 0 := by
  simp [group]

theorem eq_zero_of_groups {count value : Nat} (fits : value < 2 ^ (width * count))
    (zero : ∀ place < count, group width (width * count) value place = 0) : value = 0 := by
  induction count generalizing value with
  | zero => simpa using fits
  | succ count ih =>
    have lowFits := Nat.mod_lt value (Nat.two_pow_pos width)
    have last := zero count (Nat.lt_succ_self count)
    rw [← Nat.div_add_mod' value (2 ^ width), group_last _ lowFits] at last
    have high : value / 2 ^ width = 0 := by
      refine ih ?_ fun place low => ?_
      · rw [Nat.div_lt_iff_lt_mul (Nat.two_pow_pos width), ← Nat.pow_add]
        exact fits
      · have here := zero place (by omega)
        rw [← Nat.div_add_mod' value (2 ^ width), Nat.mul_succ,
          group_append (Nat.mul_le_mul_left width low) lowFits] at here
        exact here
    rw [← Nat.div_add_mod' value (2 ^ width), high, last, Nat.zero_mul]

theorem joinGroups_append (width : Nat) (gs : List Nat) (g : Nat)
    : joinGroups width (gs ++ [g]) = joinGroups width gs * 2 ^ width + g := by
  rw [joinGroups, List.foldl_append]
  rfl

theorem joinGroups_cons (width g : Nat) (gs : List Nat)
    : joinGroups width (g :: gs) = g * 2 ^ (width * gs.length) + joinGroups width gs := by
  induction gs using List.reverseRecOn with
  | nil => simp [joinGroups]
  | append_singleton gs last ih =>
    rw [← List.cons_append, joinGroups_append, ih, joinGroups_append, List.length_append,
      List.length_singleton, Nat.mul_add, Nat.pow_add, Nat.mul_one]
    ring

theorem groups_joinGroups (positive : 0 < width) {gs : List Nat} (fits : ∀ g ∈ gs, g < 2 ^ width)
    : groups width (width * gs.length) (joinGroups width gs) = gs := by
  rw [groups, Nat.mul_div_cancel_left _ positive]
  induction gs using List.reverseRecOn with
  | nil => rfl
  | append_singleton gs g ih =>
    have here := fits g (by simp)
    rw [List.length_append, List.length_singleton, List.range_succ, List.map_append,
      joinGroups_append]
    congr 1
    · refine Eq.trans ?_ (ih fun other member => fits other (List.mem_append_left _ member))
      refine List.map_congr_left fun place member => ?_
      rw [Nat.mul_succ]
      exact group_append (Nat.mul_le_mul_left width (List.mem_range.mp member)) here _
    · rw [List.map_singleton, group_last _ here]

/-- A string of whole groups is its groups joined. -/
theorem joinGroups_groups {count value : Nat} (positive : 0 < width)
    (fits : value < 2 ^ (width * count))
    : joinGroups width (groups width (width * count) value) = value := by
  rw [groups, Nat.mul_div_cancel_left _ positive]
  induction count generalizing value with
  | zero =>
    rw [Nat.mul_zero, Nat.pow_zero, Nat.lt_one_iff] at fits
    exact fits.symm
  | succ count ih =>
    have lowFits := Nat.mod_lt value (Nat.two_pow_pos width)
    have highFits : value / 2 ^ width < 2 ^ (width * count) := by
      rw [Nat.div_lt_iff_lt_mul (Nat.two_pow_pos width), ← Nat.pow_add]
      exact fits
    have high : (List.range count).map (group width (width * (count + 1)) value)
        = (List.range count).map (group width (width * count) (value / 2 ^ width)) := by
      refine List.map_congr_left fun place member => ?_
      have within := Nat.mul_le_mul_left width (Nat.succ_le_of_lt (List.mem_range.mp member))
      conv_lhs => rw [← Nat.div_add_mod' value (2 ^ width)]
      exact group_append within lowFits _
    have last : group width (width * (count + 1)) value count = value % 2 ^ width := by
      conv_lhs => rw [← Nat.div_add_mod' value (2 ^ width)]
      exact group_last _ lowFits
    rw [List.range_succ, List.map_append, List.map_singleton, joinGroups_append, high,
      ih highFits, last, Nat.div_add_mod']

end Z23.Lib.BitGroups
