import Z23.Net.CompactBlocks

/-!
The table of short ids answers with a source whose short id is the one asked for, and only when all
the sources with that short id have the same hash.
-/

namespace Z23.Net.CompactBlocks

open Z23.Lib.Bytes
open Z23.Lib.Codec
open Z23.Lib.LinearProbing
open Z23.Lib.OpenTable
open Z23.Wire

-- What the table stands for

section

variable (mempoolTxs extraTxs : List Wire.Transaction) (siphashKey : Blob 16)

def srcHash (src : Nat) : Uint256 := (cbSrcTx mempoolTxs extraTxs src).hash

def srcSid (src : Nat) : Nat :=
  cbSidFromBytes (shortTxid siphashKey (srcHash mempoolTxs extraTxs src))

/-- Every listed source with the short id has the hash of `src`. -/
def Agreed (srcs : List Nat) (sid src : Nat) : Prop :=
  ∀ other ∈ srcs, srcSid mempoolTxs extraTxs siphashKey other = sid →
    srcHash mempoolTxs extraTxs other = srcHash mempoolTxs extraTxs src

/-- The table after the listed sources: an entry for each of their short ids, ambiguous when they
do not agree. -/
structure Tabled (srcs : List Nat) (tab : SidTable) : Prop where
  indexed : ∃ occupied, Indexed id tab occupied ∧ occupied.length ≤ srcs.length
  entries
    : ∀ sid entry, Contains tab (sid, entry) →
        entry.src ∈ srcs ∧ srcSid mempoolTxs extraTxs siphashKey entry.src = sid
          ∧ (entry.ambiguous = false ↔ Agreed mempoolTxs extraTxs siphashKey srcs sid entry.src)
  covered
    : ∀ src ∈ srcs, ∃ entry, Contains tab (srcSid mempoolTxs extraTxs siphashKey src, entry)

end

variable {mempoolTxs extraTxs : List Wire.Transaction} {siphashKey : Blob 16} {srcs : List Nat}
  {tab : SidTable}

theorem agreed_append {sid src new : Nat}
    : Agreed mempoolTxs extraTxs siphashKey (srcs ++ [new]) sid src
        ↔ Agreed mempoolTxs extraTxs siphashKey srcs sid src
          ∧ (srcSid mempoolTxs extraTxs siphashKey new = sid →
              srcHash mempoolTxs extraTxs new = srcHash mempoolTxs extraTxs src) := by
  simp only [Agreed, List.forall_mem_append, List.forall_mem_singleton]

theorem Tabled.empty (bits : Nat)
    : Tabled mempoolTxs extraTxs siphashKey [] (List.replicate (2 ^ bits) none) where
  indexed := ⟨[], Indexed.empty id bits, Nat.le_refl _⟩
  entries := by
    rintro sid entry ⟨pos, found⟩
    rw [cellAt_replicate] at found
    cases found
  covered := by simp

-- One source

section

variable (tabled : Tabled mempoolTxs extraTxs siphashKey srcs tab)
include tabled

theorem Tabled.insert_free {src pos : Nat}
    (free : probe id tab (srcSid mempoolTxs extraTxs siphashKey src) = .free pos)
    : Tabled mempoolTxs extraTxs siphashKey (srcs ++ [src])
        (tab.set pos (some (srcSid mempoolTxs extraTxs siphashKey src, ⟨src, false⟩))) := by
  obtain ⟨occupied, indexed, few⟩ := tabled.indexed
  have absent := indexed.absent_of_free free
  have contains := contains_insert indexed free ⟨src, false⟩
  have alone : ∀ other ∈ srcs,
      srcSid mempoolTxs extraTxs siphashKey other ≠ srcSid mempoolTxs extraTxs siphashKey src := by
    intro other member same
    obtain ⟨entry, held⟩ := tabled.covered other member
    rw [same] at held
    exact absent entry held
  constructor
  · refine ⟨_, indexed.insert free _, ?_⟩
    simpa using few
  · intro sid entry held
    rcases (contains _).mp held with new | old
    · cases new
      refine ⟨by simp, rfl, fun _ => ?_, fun _ => rfl⟩
      refine agreed_append.mpr ⟨?_, fun _ => rfl⟩
      intro other member same
      exact absurd same (alone other member)
    · obtain ⟨member, same, agreed⟩ := tabled.entries sid entry old
      refine ⟨List.mem_append_left _ member, same, ?_⟩
      rw [agreed, agreed_append, iff_self_and]
      intro _ newer
      rw [← same] at newer
      exact absurd newer.symm (alone entry.src member)
  · intro other member
    rcases List.mem_append.mp member with old | new
    · obtain ⟨entry, held⟩ := tabled.covered other old
      exact ⟨entry, (contains _).mpr (.inr held)⟩
    · rw [List.mem_singleton.mp new]
      exact ⟨_, (contains _).mpr (.inl rfl)⟩

theorem Tabled.insert_found {src pos : Nat} {old : CbSidEntry} (flag : Bool)
    (found : cellAt tab pos = some (srcSid mempoolTxs extraTxs siphashKey src, old))
    (marked : flag = false ↔ old.ambiguous = false ∧
      srcHash mempoolTxs extraTxs src = srcHash mempoolTxs extraTxs old.src)
    : Tabled mempoolTxs extraTxs siphashKey (srcs ++ [src])
        (tab.set pos (some (srcSid mempoolTxs extraTxs siphashKey src, ⟨old.src, flag⟩))) := by
  obtain ⟨occupied, indexed, few⟩ := tabled.indexed
  have contains := contains_replace indexed found ⟨old.src, flag⟩
  constructor
  · refine ⟨_, indexed.replace found _, ?_⟩
    rw [List.length_append]
    exact few.trans (Nat.le_add_right _ _)
  · intro sid entry held
    rcases (contains _).mp held with changed | ⟨differs, kept⟩
    · cases changed
      obtain ⟨member, same, agreed⟩ := tabled.entries _ old ⟨pos, found⟩
      refine ⟨List.mem_append_left _ member, same, ?_⟩
      rw [agreed_append, ← agreed, marked]
      simp
    · obtain ⟨member, same, agreed⟩ := tabled.entries sid entry kept
      refine ⟨List.mem_append_left _ member, same, ?_⟩
      rw [agreed, agreed_append, iff_self_and]
      intro _ newer
      exact absurd newer.symm differs
  · intro other member
    rcases List.mem_append.mp member with older | new
    · obtain ⟨entry, held⟩ := tabled.covered other older
      by_cases same : srcSid mempoolTxs extraTxs siphashKey other
          = srcSid mempoolTxs extraTxs siphashKey src
      · rw [same]
        exact ⟨_, (contains _).mpr (.inl rfl)⟩
      · exact ⟨entry, (contains _).mpr (.inr ⟨same, held⟩)⟩
    · rw [List.mem_singleton.mp new]
      exact ⟨_, (contains _).mpr (.inl rfl)⟩

theorem Tabled.cbSidInsert (roomy : srcs.length < tab.length) (src : Nat)
    : Tabled mempoolTxs extraTxs siphashKey (srcs ++ [src])
        (CompactBlocks.cbSidInsert mempoolTxs extraTxs tab
          (srcSid mempoolTxs extraTxs siphashKey src) src) := by
  obtain ⟨occupied, indexed, few⟩ := tabled.indexed
  rw [CompactBlocks.cbSidInsert]
  split
  · rename_i pos free
    exact tabled.insert_free free
  · rename_i pos found
    obtain ⟨⟨first, ambiguous⟩, held⟩ := probe_found found
    have kept := set_cellAt held
    rw [held]
    cases ambiguous with
    | true =>
      have stays := tabled.insert_found true held (by simp)
      rw [kept] at stays
      exact stays
    | false =>
      dsimp only
      by_cases same : srcHash mempoolTxs extraTxs first = srcHash mempoolTxs extraTxs src
      · have stays := tabled.insert_found false held (by simp [same])
        rw [kept] at stays
        rw [if_neg (fun differs => differs same)]
        exact stays
      · refine (congrArg (Tabled mempoolTxs extraTxs siphashKey _) (if_pos same)).mpr ?_
        exact tabled.insert_found true held (by simp [Ne.symm same])
  · rename_i exhausted
    exact absurd exhausted (indexed.probe_ne_exhausted (Nat.lt_of_le_of_lt few roomy) _)

end

-- All the sources

theorem length_cbSidInsert (sid src : Nat)
    : (cbSidInsert mempoolTxs extraTxs tab sid src).length = tab.length := by
  rw [cbSidInsert]
  split
  · exact List.length_set
  · split
    · split
      · exact List.length_set
      · rfl
    · rfl
  · rfl

theorem Tabled.insertSources {more : List Nat}
    (tabled : Tabled mempoolTxs extraTxs siphashKey srcs tab)
    (roomy : srcs.length + more.length ≤ tab.length)
    : Tabled mempoolTxs extraTxs siphashKey (srcs ++ more)
        (CompactBlocks.insertSources mempoolTxs extraTxs siphashKey tab more) := by
  induction more generalizing srcs tab with
  | nil =>
    rw [List.append_nil]
    exact tabled
  | cons src more ih =>
    rw [List.length_cons] at roomy
    have here := tabled.cbSidInsert (by omega) src
    have rest := ih here (by
      rw [length_cbSidInsert, List.length_append, List.length_singleton]
      omega)
    rw [List.append_assoc] at rest
    exact rest

theorem sidSlots_spec (numSources fuel bits : Nat) (enough : numSources * 2 ≤ 2 ^ (bits + fuel))
    : ∃ bits', sidSlots numSources fuel (2 ^ bits) = 2 ^ bits' ∧ numSources * 2 ≤ 2 ^ bits' := by
  induction fuel generalizing bits with
  | zero => exact ⟨bits, rfl, enough⟩
  | succ fuel ih =>
    rw [sidSlots]
    split
    · rw [← Nat.pow_succ]
      apply ih
      rwa [Nat.succ_add_eq_add_succ]
    · rename_i large
      exact ⟨bits, rfl, Nat.le_of_not_lt large⟩

theorem sidSlots_sources (numSources : Nat)
    : ∃ bits, sidSlots numSources numSources 16 = 2 ^ bits ∧ numSources * 2 ≤ 2 ^ bits := by
  apply sidSlots_spec numSources numSources 4
  have grows : numSources < 2 ^ numSources := Nat.lt_two_pow_self
  rw [Nat.pow_add]
  omega

theorem tabled_cbBuildSidTable (some : mempoolTxs.length + extraTxs.length ≠ 0)
    : Tabled mempoolTxs extraTxs siphashKey
        (List.range (mempoolTxs.length + extraTxs.length))
        (cbBuildSidTable mempoolTxs extraTxs siphashKey) := by
  obtain ⟨bits, slots, room⟩ := sidSlots_sources (mempoolTxs.length + extraTxs.length)
  have blank : Tabled mempoolTxs extraTxs siphashKey [] (List.replicate (2 ^ bits) none) :=
    Tabled.empty bits
  have fits : ([] : List Nat).length + (List.range (mempoolTxs.length + extraTxs.length)).length
      ≤ (List.replicate (2 ^ bits) (none : Option (Nat × CbSidEntry))).length := by
    rw [List.length_replicate, List.length_range, List.length_nil]
    omega
  rw [cbBuildSidTable]
  simp only [if_neg some, slots]
  exact blank.insertSources fits

-- Lookups

theorem Tabled.cbSidLookup (tabled : Tabled mempoolTxs extraTxs siphashKey srcs tab) (sid : Nat)
    : (∀ src, CompactBlocks.cbSidLookup tab sid = some src →
          src ∈ srcs ∧ srcSid mempoolTxs extraTxs siphashKey src = sid
            ∧ Agreed mempoolTxs extraTxs siphashKey srcs sid src)
        ∧ (CompactBlocks.cbSidLookup tab sid = none →
            ∀ src ∈ srcs, srcSid mempoolTxs extraTxs siphashKey src = sid →
              ¬ Agreed mempoolTxs extraTxs siphashKey srcs sid src) := by
  obtain ⟨occupied, indexed, few⟩ := tabled.indexed
  rw [CompactBlocks.cbSidLookup]
  cases outcome : probe id tab sid with
  | found pos =>
    obtain ⟨⟨first, ambiguous⟩, held⟩ := probe_found outcome
    obtain ⟨member, same, agreed⟩ := tabled.entries sid _ ⟨pos, held⟩
    simp only [held]
    cases ambiguous with
    | false =>
      refine ⟨?_, fun missed => by cases missed⟩
      intro src isFirst
      obtain rfl := Option.some.inj isFirst
      exact ⟨member, same, agreed.mp rfl⟩
    | true =>
      refine ⟨fun src found => (by cases found), ?_⟩
      intro _ src srcMember srcSame all
      have apart : ¬ Agreed mempoolTxs extraTxs siphashKey srcs sid first := by
        rw [← agreed]
        simp
      apply apart
      intro other otherMember otherSame
      rw [all other otherMember otherSame, all first member same]
  | free pos =>
    refine ⟨fun src found => (by cases found), ?_⟩
    intro _ src member same _
    obtain ⟨entry, held⟩ := tabled.covered src member
    rw [same] at held
    exact indexed.absent_of_free outcome entry held
  | exhausted =>
    refine ⟨fun src found => (by cases found), ?_⟩
    intro _ src member same _
    obtain ⟨entry, pos, held⟩ := tabled.covered src member
    rw [same] at held
    refine indexed.probed.absent_of_not_found sid ?_ pos (keyAt_of_cellAt held)
    intro other found
    rw [probe, found] at outcome
    cases outcome

end Z23.Net.CompactBlocks
