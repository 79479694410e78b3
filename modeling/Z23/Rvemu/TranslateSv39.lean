import Mathlib.Algebra.Order.Ring.Nat
import Mathlib.Logic.Function.Basic
import Mathlib.Tactic.Ring

/-!
The Sv39 page-table walk of the emulator against the chains of entries that the privileged
specification allows.
-/

namespace Z23.Rvemu

abbrev Word := BitVec 64

def pteV : Word := 1
def pteR : Word := 2
def pteW : Word := 4
def pteX : Word := 8
def pteU : Word := 16
def pteA : Word := 64
def pteD : Word := 128
def ppnMask : Word := 0xfffffffffff
def statusSum : Word := 1#64 <<< 18
def statusMxr : Word := 1#64 <<< 19

/-- One of the bits of the mask is set. -/
def has (w mask : Word) : Bool := w &&& mask ≠ 0

inductive Access where
  | fetch
  | load
  | store
deriving DecidableEq, Repr

inductive AdPolicy where
  | fault
  | update
deriving DecidableEq, Repr

inductive Priv where
  | u
  | s
  | m
deriving DecidableEq, Repr

inductive TranslationStatus where
  | translated
  | pageFault
  | accessFault
  | retry
  | unsupported
  | invalid
deriving DecidableEq, Repr

structure TranslationRequest where
  va : Word
  satp : Word
  mstatus : Word
  effectivePriv : Priv
  access : Access
  adPolicy : AdPolicy
deriving DecidableEq, Repr

structure Translation where
  status : TranslationStatus
  pa : Word := 0
  tval : Word
  cause : Nat := 0
  pageShift : Nat := 0
deriving DecidableEq, Repr

/-- The entries that can be read; the others are denied. -/
abbrev PageMemory := Word → Option Word

inductive Exchange where
  | exchanged
  | mismatch
  | failed
deriving DecidableEq, Repr

/-- How an exchange of an entry ends, which other harts have a part in; the callback may be
missing. -/
abbrev Exchanges := Option (Word → Word → Word → Exchange)

def result (r : TranslationRequest) (status : TranslationStatus) : Translation :=
  { status
    tval := r.va
    cause :=
      match status, r.access with
      | .pageFault, .fetch => 12
      | .pageFault, .load => 13
      | .pageFault, .store => 15
      | .accessFault, .fetch => 1
      | .accessFault, .load => 5
      | .accessFault, .store => 7
      | _, _ => 0 }

def permitted (r : TranslationRequest) (pte : Word) : Bool :=
  if r.effectivePriv = .u && !has pte pteU then false
  else if r.effectivePriv = .s && has pte pteU
      && (r.access = .fetch || !has r.mstatus statusSum) then false
  else
    match r.access with
    | .fetch => has pte pteX
    | .store => has pte pteW
    | .load => has pte pteR || (has r.mstatus statusMxr && has pte pteX)

/-- The bits an access leaves set in its leaf. -/
def neededBits (r : TranslationRequest) : Word := pteA ||| (if r.access = .store then pteD else 0)

def ppnOf (pte : Word) : Word := (pte >>> 10) &&& ppnMask

def translatedAt (r : TranslationRequest) (pte : Word) (level : Nat) : Translation :=
  { result r .translated with
    pageShift := 12 + level * 9
    pa := (ppnOf pte <<< 12) ||| (r.va &&& ((1#64 <<< (12 + level * 9)) - 1)) }

def leaf (r : TranslationRequest) (exchange : Exchanges) (mem : PageMemory) (pte ptePa : Word)
    (level : Nat) : Translation × PageMemory :=
  if !permitted r pte || has (ppnOf pte) ((1#64 <<< (level * 9)) - 1) then (result r .pageFault, mem)
  else if pte &&& neededBits r ≠ neededBits r then
    if r.adPolicy = .fault then (result r .pageFault, mem)
    else
      match exchange with
      | none => (result r .invalid, mem)
      | some exchange =>
        match exchange ptePa pte (pte ||| neededBits r) with
        | .mismatch => (result r .retry, mem)
        | .failed => (result r .accessFault, mem)
        | .exchanged =>
          (translatedAt r pte level, Function.update mem ptePa (some (pte ||| neededBits r)))
  else (translatedAt r pte level, mem)

def slotOf (va table : Word) (level : Nat) : Word :=
  table + ((va >>> (12 + 9 * level)) &&& 511) * 8

def nextTable (pte : Word) : Word := ppnOf pte <<< 12

/-- One table of the walk; the levels go down to the smallest pages. -/
def walkFrom (r : TranslationRequest) (exchange : Exchanges) (mem : PageMemory)
    : (level : Nat) → (table : Word) → Translation × PageMemory
  | level, table =>
    match mem (slotOf r.va table level) with
    | none => (result r .accessFault, mem)
    | some pte =>
      if !has pte pteV || (has pte pteW && !has pte pteR) || pte >>> 54 ≠ 0 then
        (result r .pageFault, mem)
      else if has pte (pteR ||| pteX) then
        leaf r exchange mem pte (slotOf r.va table level) level
      else if has pte (pteU ||| pteA ||| pteD) then (result r .pageFault, mem)
      else
        match level with
        | 0 => (result r .pageFault, mem)
        | level + 1 => walkFrom r exchange mem level (nextTable pte)

def rootOf (satp : Word) : Word := (satp &&& ppnMask) <<< 12

def modeOf (satp : Word) : Word := satp >>> 60

/-- The bits above the 39th repeat the top bit of the address. -/
def canonical (va : Word) : Bool := va >>> 39 = if has va (1#64 <<< 38) then 0x1ffffff else 0

def rvemuTranslateSv39 (r : TranslationRequest) (exchange : Exchanges) (mem : PageMemory)
    : Translation × PageMemory :=
  if r.effectivePriv = .m || modeOf r.satp = 0 then
    ({ result r .translated with pa := r.va }, mem)
  else if modeOf r.satp ≠ 8 then (result r .unsupported, mem)
  else if !canonical r.va then (result r .pageFault, mem)
  else walkFrom r exchange mem 2 (rootOf r.satp)

-- What the specification allows

/-- An entry in use: not writable without being readable, and with no reserved bit. -/
structure WellFormed (pte : Word) : Prop where
  valid : has pte pteV
  readable : has pte pteW → has pte pteR
  reserved : pte >>> 54 = 0

/-- The chain of pointers from a table to a leaf, with the place of the leaf and its level. -/
inductive Walk (mem : PageMemory) (va : Word) : Nat → Word → Word → Word → Nat → Prop where
  | leaf {level table pte} : mem (slotOf va table level) = some pte → WellFormed pte
      → has pte (pteR ||| pteX) → Walk mem va level table pte (slotOf va table level) level
  | pointer {level table pte target slot depth} : mem (slotOf va table (level + 1)) = some pte
      → WellFormed pte → has pte (pteR ||| pteX) = false
      → has pte (pteU ||| pteA ||| pteD) = false
      → Walk mem va level (nextTable pte) target slot depth
      → Walk mem va (level + 1) table target slot depth

/-- The R, W, X and U bits permit the access under the privilege, SUM and MXR. -/
structure Permits (r : TranslationRequest) (pte : Word) : Prop where
  user : r.effectivePriv = .u → has pte pteU
  supervisor : r.effectivePriv = .s → has pte pteU
    → r.access ≠ .fetch ∧ has r.mstatus statusSum
  fetch : r.access = .fetch → has pte pteX
  store : r.access = .store → has pte pteW
  load : r.access = .load → has pte pteR ∨ (has r.mstatus statusMxr ∧ has pte pteX)

/-- The leaf already shows the access, or it is made to by an exchange of the entry. -/
inductive Marks (r : TranslationRequest) (exchange : Exchanges) (mem : PageMemory)
    (pte slot : Word) : PageMemory → Prop where
  | marked : pte &&& neededBits r = neededBits r → Marks r exchange mem pte slot mem
  | update {swap} : pte &&& neededBits r ≠ neededBits r → r.adPolicy = .update
      → exchange = some swap → swap slot pte (pte ||| neededBits r) = .exchanged
      → Marks r exchange mem pte slot (Function.update mem slot (some (pte ||| neededBits r)))

/-- A leaf at a level gives the address: its frame, which is aligned, and the page offset. -/
structure Reaches (r : TranslationRequest) (exchange : Exchanges) (mem : PageMemory)
    (pte slot : Word) (level : Nat) (pa : Word) (mem' : PageMemory) : Prop where
  permits : Permits r pte
  aligned : (ppnOf pte).toNat % 2 ^ (9 * level) = 0
  address : pa.toNat = (ppnOf pte).toNat * 4096 + r.va.toNat % 2 ^ (12 + 9 * level)
  marks : Marks r exchange mem pte slot mem'

variable {r : TranslationRequest} {exchange : Exchanges} {mem mem' : PageMemory}
  {table pte slot pa : Word} {level depth : Nat}

theorem permitted_iff : permitted r pte = true ↔ Permits r pte := by
  constructor
  · intro allowed
    unfold permitted at allowed
    split at allowed
    · cases allowed
    case isFalse user =>
      split at allowed
      · cases allowed
      case isFalse supervisor =>
        constructor <;> intro request <;> simp_all
  · intro permits
    obtain ⟨user, supervisor, fetch, store, load⟩ := permits
    unfold permitted
    rw [if_neg, if_neg]
    · cases request : r.access with
      | fetch => exact fetch request
      | load => simpa using load request
      | store => exact store request
    · simp only [Bool.and_eq_true, decide_eq_true_eq, Bool.or_eq_true, Bool.not_eq_true']
      rintro ⟨⟨isS, isU⟩, refused⟩
      have allowed := supervisor isS isU
      rcases refused with isFetch | closed
      · exact allowed.1 isFetch
      · rw [allowed.2] at closed
        cases closed
    · simp only [Bool.and_eq_true, decide_eq_true_eq, Bool.not_eq_true']
      rintro ⟨isU, closed⟩
      rw [user isU] at closed
      cases closed

theorem toNat_ones {k : Nat} (small : k < 64) : ((1#64 <<< k) - 1 : Word).toNat = 2 ^ k - 1 := by
  have one : (1 : Word).toNat = 1 := rfl
  have power : (1#64 <<< k : Word).toNat = 2 ^ k := by
    rw [BitVec.toNat_shiftLeft]
    change 1 <<< k % 2 ^ 64 = _
    rw [Nat.one_shiftLeft]
    exact Nat.mod_eq_of_lt (Nat.pow_lt_pow_right (by decide) small)
  have positive := Nat.two_pow_pos k
  have below : 2 ^ k < 2 ^ 64 := Nat.pow_lt_pow_right (by decide) small
  rw [BitVec.toNat_sub, power, one]
  omega

theorem toNat_and_ones (w : Word) {k : Nat} (small : k < 64)
    : (w &&& ((1#64 <<< k) - 1)).toNat = w.toNat % 2 ^ k := by
  rw [BitVec.toNat_and, toNat_ones small, Nat.and_two_pow_sub_one_eq_mod]

theorem has_ones_iff (w : Word) {k : Nat} (small : k < 64)
    : has w ((1#64 <<< k) - 1) = false ↔ w.toNat % 2 ^ k = 0 := by
  rw [← toNat_and_ones w small, has, decide_eq_false_iff_not, not_not, ← BitVec.toNat_inj]
  rfl

theorem ppnOf_lt (pte : Word) : (ppnOf pte).toNat < 2 ^ 44 := by
  have bounded := pte.isLt
  have top : (pte >>> 10).toNat = pte.toNat / 2 ^ 10 := by
    rw [BitVec.toNat_ushiftRight, Nat.shiftRight_eq_div_pow]
  have mask : ppnMask.toNat = 2 ^ 44 - 1 := rfl
  rw [ppnOf, BitVec.toNat_and, mask, Nat.and_two_pow_sub_one_eq_mod]
  exact Nat.mod_lt _ (by decide)

theorem toNat_translatedAt (low : level ≤ 2) (aligned : (ppnOf pte).toNat % 2 ^ (9 * level) = 0)
    : (translatedAt r pte level).pa.toNat
        = (ppnOf pte).toNat * 4096 + r.va.toNat % 2 ^ (12 + 9 * level) := by
  have bound := ppnOf_lt pte
  obtain ⟨frame, split⟩ := Nat.dvd_of_mod_eq_zero aligned
  have shifted : (ppnOf pte <<< 12).toNat = frame <<< (12 + 9 * level) := by
    rw [BitVec.toNat_shiftLeft, Nat.shiftLeft_eq, Nat.mod_eq_of_lt (by omega), split,
      Nat.shiftLeft_eq, Nat.pow_add]
    ring
  have offset := toNat_and_ones r.va (k := 12 + level * 9) (by omega)
  have page : 12 + level * 9 = 12 + 9 * level := by omega
  change ((ppnOf pte <<< 12) ||| (r.va &&& ((1#64 <<< (12 + level * 9)) - 1))).toNat = _
  rw [BitVec.toNat_or, offset, shifted, page,
    ← Nat.shiftLeft_add_eq_or_of_lt (Nat.mod_lt _ (Nat.two_pow_pos _)), Nat.shiftLeft_eq, split,
    Nat.pow_add]
  ring

theorem leaf_iff (low : level ≤ 2)
    : ((leaf r exchange mem pte slot level).1.status = .translated
          ∧ (leaf r exchange mem pte slot level).1.pa = pa
          ∧ (leaf r exchange mem pte slot level).2 = mem')
        ↔ Reaches r exchange mem pte slot level pa mem' := by
  have aligned_iff : has (ppnOf pte) ((1#64 <<< (level * 9)) - 1) = false
      ↔ (ppnOf pte).toNat % 2 ^ (9 * level) = 0 := by
    rw [has_ones_iff _ (by omega), Nat.mul_comm]
  unfold leaf
  split
  case isTrue refused =>
    constructor
    · rintro ⟨translated, -⟩
      cases translated
    · intro reaches
      rw [permitted_iff.mpr reaches.permits, aligned_iff.mpr reaches.aligned] at refused
      cases refused
  case isFalse allowed =>
    simp only [Bool.or_eq_true, Bool.not_eq_true', not_or, Bool.not_eq_false,
      Bool.not_eq_true] at allowed
    have permits := permitted_iff.mp allowed.1
    have aligned := aligned_iff.mp allowed.2
    -- what is left differs in the entry and the memory only
    have finish : ∀ after, ((translatedAt r pte level).status = .translated
          ∧ (translatedAt r pte level).pa = pa ∧ after = mem')
        ↔ pa.toNat = (ppnOf pte).toNat * 4096 + r.va.toNat % 2 ^ (12 + 9 * level)
          ∧ after = mem' := by
      intro after
      rw [← toNat_translatedAt (r := r) low aligned, BitVec.toNat_inj, eq_comm (a := pa)]
      exact ⟨fun all => all.2, fun both => ⟨rfl, both⟩⟩
    split
    case isFalse marked =>
      rw [not_not] at marked
      rw [finish]
      constructor
      · rintro ⟨address, rfl⟩
        exact ⟨permits, aligned, address, .marked marked⟩
      · rintro ⟨-, -, address, marks⟩
        cases marks with
        | marked => exact ⟨address, rfl⟩
        | update unmarked => exact absurd marked unmarked
    case isTrue unmarked =>
      have onlyUpdate : ∀ {pa mem'}, Reaches r exchange mem pte slot level pa mem' →
          r.adPolicy = .update ∧ ∃ swap, exchange = some swap
            ∧ swap slot pte (pte ||| neededBits r) = .exchanged
            ∧ mem' = Function.update mem slot (some (pte ||| neededBits r)) := by
        intro pa mem' reaches
        cases reaches.marks with
        | marked marked => exact absurd marked unmarked
        | update _ policy present done => exact ⟨policy, _, present, done, rfl⟩
      split
      case isTrue policy =>
        constructor
        · rintro ⟨translated, -⟩
          cases translated
        · intro reaches
          rw [(onlyUpdate reaches).1] at policy
          cases policy
      case isFalse policy =>
        have update : r.adPolicy = .update := by
          cases chosen : r.adPolicy with
          | fault => exact absurd chosen policy
          | update => rfl
        split
        case h_1 =>
          constructor
          · rintro ⟨translated, -⟩
            cases translated
          · intro reaches
            obtain ⟨-, swap, present, -⟩ := onlyUpdate reaches
            cases present
        case h_2 swap =>
          split
          case h_3 done =>
            rw [finish]
            constructor
            · rintro ⟨address, rfl⟩
              exact ⟨permits, aligned, address, .update unmarked update rfl done⟩
            · intro reaches
              obtain ⟨-, _, -, -, after⟩ := onlyUpdate reaches
              exact ⟨reaches.address, after.symm⟩
          all_goals
            rename_i other
            constructor
            · rintro ⟨translated, -⟩
              cases translated
            · intro reaches
              obtain ⟨-, _, present, done, -⟩ := onlyUpdate reaches
              cases present
              rw [done] at other
              cases other

theorem wellFormed_iff
    : (!has pte pteV || (has pte pteW && !has pte pteR) || decide (pte >>> 54 ≠ 0)) = false
        ↔ WellFormed pte := by
  simp only [Bool.or_eq_false_iff, Bool.not_eq_false', Bool.and_eq_false_iff,
    decide_eq_false_iff_not, not_not]
  constructor
  · rintro ⟨⟨valid, readable⟩, reserved⟩
    refine ⟨valid, fun writable => ?_, reserved⟩
    rcases readable with closed | readable
    · rw [writable] at closed
      cases closed
    · exact readable
  · rintro ⟨valid, readable, reserved⟩
    refine ⟨⟨valid, ?_⟩, reserved⟩
    cases writable : has pte pteW with
    | false => exact .inl rfl
    | true => exact .inr (readable writable)

theorem Walk.first {va target : Word} (walk : Walk mem va level table target slot depth)
    : ∃ pte, mem (slotOf va table level) = some pte ∧ WellFormed pte
        ∧ ((has pte (pteR ||| pteX) ∧ target = pte ∧ slot = slotOf va table level ∧ depth = level)
          ∨ (has pte (pteR ||| pteX) = false ∧ has pte (pteU ||| pteA ||| pteD) = false
            ∧ ∃ below, level = below + 1 ∧ Walk mem va below (nextTable pte) target slot depth)) := by
  cases walk with
  | leaf read formed isLeaf => exact ⟨_, read, formed, .inl ⟨isLeaf, rfl, rfl, rfl⟩⟩
  | pointer read formed notLeaf plain rest =>
    exact ⟨_, read, formed, .inr ⟨notLeaf, plain, _, rfl, rest⟩⟩

theorem walkFrom_iff (low : level ≤ 2)
    : ((walkFrom r exchange mem level table).1.status = .translated
          ∧ (walkFrom r exchange mem level table).1.pa = pa
          ∧ (walkFrom r exchange mem level table).2 = mem')
        ↔ ∃ pte slot depth, Walk mem r.va level table pte slot depth
          ∧ Reaches r exchange mem pte slot depth pa mem' := by
  induction level using Nat.strong_induction_on generalizing table with
  | _ level ih =>
    -- a fault is no translation, so no chain may pass the entry that faults
    have fault : ∀ {status}, status ≠ .translated
        → (∀ {target slot depth}, ¬Walk mem r.va level table target slot depth)
        → (((result r status).status = .translated ∧ (result r status).pa = pa ∧ mem = mem')
          ↔ ∃ pte slot depth, Walk mem r.va level table pte slot depth
            ∧ Reaches r exchange mem pte slot depth pa mem') := by
      intro status other none
      exact ⟨fun all => absurd all.1 other, fun ⟨_, _, _, walk, _⟩ => absurd walk none⟩
    unfold walkFrom
    split
    case h_1 denied =>
      refine fault (by simp) fun walk => ?_
      obtain ⟨pte, read, -⟩ := walk.first
      rw [denied] at read
      cases read
    case h_2 pte read =>
      have only : ∀ {target slot depth}, Walk mem r.va level table target slot depth
          → WellFormed pte ∧ ((has pte (pteR ||| pteX) ∧ target = pte
              ∧ slot = slotOf r.va table level ∧ depth = level)
            ∨ (has pte (pteR ||| pteX) = false ∧ has pte (pteU ||| pteA ||| pteD) = false
              ∧ ∃ below, level = below + 1
                ∧ Walk mem r.va below (nextTable pte) target slot depth)) := by
        intro target slot depth walk
        obtain ⟨_, same, rest⟩ := walk.first
        rw [read] at same
        cases same
        exact rest
      split
      case isTrue malformed =>
        refine fault (by simp) fun walk => ?_
        rw [wellFormed_iff.mpr (only walk).1] at malformed
        cases malformed
      case isFalse formed =>
        rw [Bool.not_eq_true, wellFormed_iff] at formed
        split
        case isTrue isLeaf =>
          rw [leaf_iff low]
          constructor
          · intro reaches
            exact ⟨_, _, _, .leaf read formed isLeaf, reaches⟩
          · rintro ⟨_, _, _, walk, reaches⟩
            rcases (only walk).2 with ⟨-, rfl, rfl, rfl⟩ | ⟨notLeaf, -⟩
            · exact reaches
            · rw [isLeaf] at notLeaf
              cases notLeaf
        case isFalse notLeaf =>
          rw [Bool.not_eq_true] at notLeaf
          have pointer : ∀ {target slot depth}, Walk mem r.va level table target slot depth
              → has pte (pteU ||| pteA ||| pteD) = false ∧ ∃ below, level = below + 1
                ∧ Walk mem r.va below (nextTable pte) target slot depth := by
            intro target slot depth walk
            rcases (only walk).2 with ⟨isLeaf, -⟩ | ⟨-, rest⟩
            · rw [notLeaf] at isLeaf
              cases isLeaf
            · exact rest
          split
          case isTrue marked =>
            refine fault (by simp) fun walk => ?_
            rw [(pointer walk).1] at marked
            cases marked
          case isFalse plain =>
            rw [Bool.not_eq_true] at plain
            cases level with
            | zero =>
              refine fault (by simp) fun walk => ?_
              obtain ⟨-, below, impossible, -⟩ := pointer walk
              cases impossible
            | succ below =>
              rw [ih below (Nat.lt_succ_self _) (Nat.le_of_succ_le low)]
              constructor
              · rintro ⟨_, _, _, walk, reaches⟩
                exact ⟨_, _, _, .pointer read formed notLeaf plain walk, reaches⟩
              · rintro ⟨_, _, _, walk, reaches⟩
                obtain ⟨-, _, same, rest⟩ := pointer walk
                cases same
                exact ⟨_, _, _, rest, reaches⟩

theorem leaf_keeps
    : (leaf r exchange mem pte slot level).1.status = .translated
      ∨ (leaf r exchange mem pte slot level).2 = mem := by
  unfold leaf
  split
  · exact .inr rfl
  split
  · split
    · exact .inr rfl
    split
    · exact .inr rfl
    split
    · exact .inr rfl
    · exact .inr rfl
    · exact .inl rfl
  · exact .inr rfl

theorem walkFrom_keeps
    : (walkFrom r exchange mem level table).1.status = .translated
      ∨ (walkFrom r exchange mem level table).2 = mem := by
  induction level using Nat.strong_induction_on generalizing table with
  | _ level ih =>
    unfold walkFrom
    split
    · exact .inr rfl
    split
    · exact .inr rfl
    split
    · exact leaf_keeps
    split
    · exact .inr rfl
    cases level with
    | zero => exact .inr rfl
    | succ below => exact ih below (Nat.lt_succ_self _)

theorem paged_iff (privilege : r.effectivePriv ≠ .m) (paged : modeOf r.satp ≠ 0)
    : ((rvemuTranslateSv39 r exchange mem).1.status = .translated
          ∧ (rvemuTranslateSv39 r exchange mem).1.pa = pa
          ∧ (rvemuTranslateSv39 r exchange mem).2 = mem')
        ↔ modeOf r.satp = 8 ∧ canonical r.va ∧ ∃ pte slot level,
          Walk mem r.va 2 (rootOf r.satp) pte slot level
            ∧ Reaches r exchange mem pte slot level pa mem' := by
  rw [rvemuTranslateSv39, if_neg (by simpa [privilege] using paged)]
  split
  case isTrue other => exact ⟨fun all => (by cases all.1), fun all => absurd all.1 other⟩
  case isFalse mode =>
    rw [not_not] at mode
    split
    case isTrue outside =>
      refine ⟨fun all => (by cases all.1), fun all => ?_⟩
      rw [all.2.1] at outside
      cases outside
    case isFalse inside =>
      rw [walkFrom_iff (Nat.le_refl 2)]
      have isCanonical : canonical r.va = true := by simpa using inside
      exact ⟨fun found => ⟨mode, isCanonical, found⟩, fun all => all.2.2⟩

/-- Translation follows the specification: without paging the address is itself; with paging a
translation is a chain from the root to a permitted, aligned leaf, and only that leaf is marked;
so a user access needs U and a store needs W. -/
theorem translateSv39_iff (r : TranslationRequest) (exchange : Exchanges) (mem : PageMemory)
    : (r.effectivePriv = .m ∨ modeOf r.satp = 0
        → (rvemuTranslateSv39 r exchange mem).1.status = .translated
          ∧ (rvemuTranslateSv39 r exchange mem).1.pa = r.va
          ∧ (rvemuTranslateSv39 r exchange mem).2 = mem)
      ∧ (r.effectivePriv ≠ .m → modeOf r.satp ≠ 0
        → (∀ pa mem', ((rvemuTranslateSv39 r exchange mem).1.status = .translated
              ∧ (rvemuTranslateSv39 r exchange mem).1.pa = pa
              ∧ (rvemuTranslateSv39 r exchange mem).2 = mem')
            ↔ modeOf r.satp = 8 ∧ canonical r.va ∧ ∃ pte slot level,
                Walk mem r.va 2 (rootOf r.satp) pte slot level
                  ∧ Reaches r exchange mem pte slot level pa mem')
          ∧ ((rvemuTranslateSv39 r exchange mem).1.status = .translated
            → ∃ pte slot level, Walk mem r.va 2 (rootOf r.satp) pte slot level
              ∧ (r.effectivePriv = .u → has pte pteU) ∧ (r.access = .store → has pte pteW)))
      ∧ ((rvemuTranslateSv39 r exchange mem).1.status ≠ .translated
        → (rvemuTranslateSv39 r exchange mem).2 = mem) := by
  refine ⟨?_, ?_, ?_⟩
  · intro unpaged
    rw [rvemuTranslateSv39, if_pos (by simpa using unpaged)]
    exact ⟨rfl, rfl, rfl⟩
  · intro privilege paged
    refine ⟨fun pa mem' => paged_iff privilege paged, fun translated => ?_⟩
    obtain ⟨-, -, pte, slot, level, walk, reaches⟩ :=
      (paged_iff privilege paged).mp ⟨translated, rfl, rfl⟩
    exact ⟨pte, slot, level, walk, reaches.permits.user, reaches.permits.store⟩
  · intro untranslated
    unfold rvemuTranslateSv39 at untranslated ⊢
    split
    case isTrue => rfl
    case isFalse paged =>
      rw [if_neg paged] at untranslated
      split
      · rfl
      case isFalse mode =>
        rw [if_neg mode] at untranslated
        split
        · rfl
        case isFalse inside =>
          rw [if_neg inside] at untranslated
          exact walkFrom_keeps.resolve_left untranslated

/-- A load in supervisor mode, with paging in the given mode. -/
def sampleLoad (satp : Word) (priv : Priv) : TranslationRequest :=
  { va := 0x4000000000, satp, mstatus := 0, effectivePriv := priv, access := .load
    adPolicy := .fault }

theorem translateSv39_iff_outside
    : (rvemuTranslateSv39 (sampleLoad 0x8000000000000000 .s) none fun _ => none).2 = fun _ => none :=
  (translateSv39_iff (sampleLoad 0x8000000000000000 .s) none fun _ => none).2.2 (by decide)

/-- In machine mode there is no walk: an address that is not canonical is its own translation. -/
theorem translateSv39_machine
    : ¬∀ (r : TranslationRequest) (exchange : Exchanges) (mem mem' : PageMemory) (pa : Word),
        ((rvemuTranslateSv39 r exchange mem).1.status = .translated
            ∧ (rvemuTranslateSv39 r exchange mem).1.pa = pa
            ∧ (rvemuTranslateSv39 r exchange mem).2 = mem')
          ↔ canonical r.va ∧ ∃ pte slot level, Walk mem r.va 2 (rootOf r.satp) pte slot level
              ∧ Reaches r exchange mem pte slot level pa mem' := by
  intro always
  have claimed := (always (sampleLoad 0x8000000000000000 .m) none (fun _ => none) _ _).mp
    ⟨rfl, rfl, rfl⟩
  exact absurd claimed.1 (by decide)

end Z23.Rvemu
