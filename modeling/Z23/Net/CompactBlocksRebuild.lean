import Z23.Lib.FoldM
import Z23.Net.CompactBlocksTable

/-!
What a reconstruction holds: the prefilled transactions where they belong, sources in the slots
whose short id only they have, and the list of the slots left.
-/

namespace Z23.Net.CompactBlocks

open Z23.Lib.Bytes
open Z23.Lib.Codec
open Z23.Lib.OpenTable
open Z23.Wire

-- Sources

/-- A source with the short id, whose hash every source with that short id has. -/
structure Resolves (sources : List Wire.Transaction) (siphashKey : Blob 16) (id : ShortTxid)
    (tx : Wire.Transaction) : Prop where
  member : tx ∈ sources
  shortId : shortTxid siphashKey tx.hash = id
  unshared : ∀ other ∈ sources, shortTxid siphashKey other.hash = id → other.hash = tx.hash

variable {mempoolTxs extraTxs : List Wire.Transaction} {siphashKey : Blob 16}

theorem cbSrcTx_getElem? {src : Nat} (inside : src < mempoolTxs.length + extraTxs.length)
    : (mempoolTxs ++ extraTxs)[src]? = some (cbSrcTx mempoolTxs extraTxs src) := by
  rw [cbSrcTx]
  split
  · rename_i early
    rw [List.getElem?_append_left early, List.getD_eq_getElem?_getD,
      List.getElem?_eq_getElem early, Option.getD_some]
  · rename_i late
    have within : src - mempoolTxs.length < extraTxs.length := by omega
    rw [List.getElem?_append_right (Nat.le_of_not_lt late), List.getD_eq_getElem?_getD,
      List.getElem?_eq_getElem within, Option.getD_some]

theorem mem_sources_iff {tx : Wire.Transaction}
    : tx ∈ mempoolTxs ++ extraTxs
        ↔ ∃ src ∈ List.range (mempoolTxs.length + extraTxs.length),
            cbSrcTx mempoolTxs extraTxs src = tx := by
  rw [List.mem_iff_getElem?]
  constructor
  · rintro ⟨src, read⟩
    have inside := (List.getElem?_eq_some_iff.mp read).1
    rw [List.length_append] at inside
    rw [cbSrcTx_getElem? inside] at read
    exact ⟨src, List.mem_range.mpr inside, Option.some.inj read⟩
  · rintro ⟨src, member, rfl⟩
    exact ⟨src, cbSrcTx_getElem? (List.mem_range.mp member)⟩

theorem cbSidFromBytes_inj {a b : ShortTxid} : cbSidFromBytes a = cbSidFromBytes b ↔ a = b := by
  constructor
  · intro same
    apply Blob.ext
    rw [← bytesLE_natLE a.data, ← bytesLE_natLE b.data, a.size_data, b.size_data]
    exact congrArg _ same
  · intro same
    rw [same]

theorem cbSidLookup_resolves (id : ShortTxid)
    : (∀ src, cbSidLookup (cbBuildSidTable mempoolTxs extraTxs siphashKey) (cbSidFromBytes id)
            = some src →
          Resolves (mempoolTxs ++ extraTxs) siphashKey id (cbSrcTx mempoolTxs extraTxs src))
        ∧ (cbSidLookup (cbBuildSidTable mempoolTxs extraTxs siphashKey) (cbSidFromBytes id) = none →
            ∀ tx, ¬ Resolves (mempoolTxs ++ extraTxs) siphashKey id tx) := by
  by_cases none : mempoolTxs.length + extraTxs.length = 0
  · have table : cbBuildSidTable mempoolTxs extraTxs siphashKey = [] := by
      rw [cbBuildSidTable]
      exact if_pos none
    have empty : mempoolTxs ++ extraTxs = [] := by
      rw [← List.length_eq_zero_iff, List.length_append, none]
    rw [table, empty]
    refine ⟨fun src found => (by cases found), fun _ tx resolves => ?_⟩
    cases resolves.member
  · obtain ⟨found, missed⟩ :=
      (@tabled_cbBuildSidTable _ _ siphashKey none).cbSidLookup (cbSidFromBytes id)
    constructor
    · intro src lookup
      obtain ⟨member, same, agreed⟩ := found src lookup
      refine ⟨mem_sources_iff.mpr ⟨src, member, rfl⟩, cbSidFromBytes_inj.mp same, ?_⟩
      intro other otherMember shared
      obtain ⟨otherSrc, inRange, rfl⟩ := mem_sources_iff.mp otherMember
      exact agreed otherSrc inRange (cbSidFromBytes_inj.mpr shared)
    · intro lookup tx resolves
      obtain ⟨src, inRange, rfl⟩ := mem_sources_iff.mp resolves.member
      refine missed lookup src inRange (cbSidFromBytes_inj.mpr resolves.shortId) ?_
      intro other otherInRange shared
      exact resolves.unshared _ (mem_sources_iff.mpr ⟨other, otherInRange, rfl⟩)
        (cbSidFromBytes_inj.mp shared)

theorem resolveSlot_spec {id : ShortTxid} {slot : Option Wire.Transaction}
    (resolved
      : resolveSlot mempoolTxs extraTxs (cbBuildSidTable mempoolTxs extraTxs siphashKey) id
          = .ok slot)
    : (∀ tx, slot = some tx → Resolves (mempoolTxs ++ extraTxs) siphashKey id tx)
        ∧ (slot = none → ∀ tx, ¬ Resolves (mempoolTxs ++ extraTxs) siphashKey id tx) := by
  obtain ⟨found, missed⟩ := @cbSidLookup_resolves mempoolTxs extraTxs siphashKey id
  rw [resolveSlot] at resolved
  cases lookup : cbSidLookup (cbBuildSidTable mempoolTxs extraTxs siphashKey) (cbSidFromBytes id) with
  | none =>
    rw [lookup] at resolved
    cases resolved
    exact ⟨fun tx filled => (by cases filled), fun _ => missed lookup⟩
  | some src =>
    rw [lookup] at resolved
    dsimp only at resolved
    split at resolved
    · cases resolved
    · cases resolved
      refine ⟨fun tx filled => ?_, fun unfilled => by cases unfilled⟩
      cases filled
      exact found src lookup

-- Slots

/-- Filled slots stay, the entries' slots get their transactions, the others stay unfilled. -/
structure Placed (entries : List PrefilledTx) (slots out : List (Option Wire.Transaction)) : Prop
    where
  length : out.length = slots.length
  kept : ∀ (slot : Nat) tx, slots[slot]? = some (some tx) → out[slot]? = some (some tx)
  filled : ∀ entry ∈ entries, out[entry.index.toNat]? = some (some entry.tx)
  unfilled
    : ∀ slot : Nat, slots[slot]? = some none → (∀ entry ∈ entries, entry.index.toNat ≠ slot) →
        out[slot]? = some none

theorem cbPlacePrefilled_spec {entries : List PrefilledTx}
    {slots out : List (Option Wire.Transaction)} (placed : cbPlacePrefilled entries slots = .ok out)
    : Placed entries slots out := by
  induction entries generalizing slots with
  | nil =>
    cases placed
    exact ⟨rfl, fun _ _ => id, by simp, fun _ unfilled _ => unfilled⟩
  | cons entry rest ih =>
    rw [cbPlacePrefilled] at placed
    split at placed
    · rename_i free
      split at placed
      · cases placed
      · obtain ⟨length, kept, filled, unfilled⟩ := ih placed
        have inside := (List.getElem?_eq_some_iff.mp free).1
        rw [List.length_set] at length
        refine ⟨length, ?_, ?_, ?_⟩
        · intro slot tx held
          apply kept
          rw [List.getElem?_set_ne, held]
          rintro rfl
          rw [free] at held
          cases held
        · intro other member
          rcases List.mem_cons.mp member with rfl | later
          · apply kept
            rw [List.getElem?_set_self inside]
          · exact filled other later
        · intro slot slotFree apart
          apply unfilled slot
          · rw [List.getElem?_set_ne (apart entry List.mem_cons_self), slotFree]
          · intro other later
            exact apart other (List.mem_cons_of_mem _ later)
    · cases placed

/-- Filled slots stay; the unfilled ones are for the short ids, in order. -/
structure Matched (tab : SidTable) (mempoolTxs extraTxs : List Wire.Transaction)
    (ids : List ShortTxid) (slots out : List (Option Wire.Transaction)) : Prop where
  length : out.length = slots.length
  kept : ∀ (slot : Nat) tx, slots[slot]? = some (some tx) → out[slot]? = some (some tx)
  resolved
    : ∀ slot : Nat, slots[slot]? = some none →
        ∃ id content, ids[(slots.take slot).countP Option.isNone]? = some id
          ∧ resolveSlot mempoolTxs extraTxs tab id = .ok content ∧ out[slot]? = some content

theorem cbResolveShortIds_spec {tab : SidTable} {ids : List ShortTxid}
    {slots out : List (Option Wire.Transaction)}
    (resolved : cbResolveShortIds mempoolTxs extraTxs tab slots ids = .ok out)
    : Matched tab mempoolTxs extraTxs ids slots out := by
  induction slots generalizing ids out with
  | nil =>
    cases resolved
    exact ⟨rfl, by simp, by simp⟩
  | cons first slots ih =>
    cases first with
    | some tx =>
      rw [cbResolveShortIds] at resolved
      obtain ⟨rest, restOk, whole⟩ := Lib.FoldM.bind_eq_ok.mp resolved
      cases whole
      obtain ⟨length, kept, later⟩ := ih restOk
      refine ⟨congrArg (· + 1) length, ?_, ?_⟩
      · intro slot other filled
        cases slot with
        | zero => exact filled
        | succ slot => exact kept slot other filled
      · intro slot unfilled
        cases slot with
        | zero => cases unfilled
        | succ slot => simpa using later slot unfilled
    | none =>
      cases ids with
      | nil => cases resolved
      | cons target ids =>
        rw [cbResolveShortIds] at resolved
        obtain ⟨content, contentOk, next⟩ := Lib.FoldM.bind_eq_ok.mp resolved
        obtain ⟨rest, restOk, whole⟩ := Lib.FoldM.bind_eq_ok.mp next
        cases whole
        obtain ⟨length, kept, later⟩ := ih restOk
        refine ⟨congrArg (· + 1) length, ?_, ?_⟩
        · intro slot other filled
          cases slot with
          | zero => cases filled
          | succ slot => exact kept slot other filled
        · intro slot unfilled
          cases slot with
          | zero => exact ⟨target, content, rfl, contentOk, rfl⟩
          | succ slot => simpa using later slot unfilled

-- Reconstructions

def CompactBlockMsg.isPrefilled (cb : CompactBlockMsg) (slot : Nat) : Bool :=
  cb.prefilled.any fun entry => entry.index.toNat = slot

/-- The short id of a slot that is not prefilled: as many unprefilled slots are before it as short
ids before its own. -/
def CompactBlockMsg.slotShortId (cb : CompactBlockMsg) (slot : Nat) : Option ShortTxid :=
  cb.shortTxids[((List.range slot).filter fun other => !cb.isPrefilled other).length]?

def CompactBlockMsg.total (cb : CompactBlockMsg) : Nat :=
  cb.prefilled.length + cb.shortTxids.length

/-- Each slot holds its prefilled transaction or a source that resolves its short id; the slots
without either are the missing ones. -/
structure Rebuilt (cb : CompactBlockMsg) (sources : List Wire.Transaction) (r : Reconstruction)
    : Prop where
  header : r.block.header = cb.header
  total : r.block.vtx.length = cb.total
  prefilled
    : ∀ entry ∈ cb.prefilled,
        r.block.vtx[entry.index.toNat]? = some entry.tx ∧ entry.index.toNat ∉ r.missing
  resolved
    : ∀ slot < cb.total, cb.isPrefilled slot = false → slot ∉ r.missing →
        ∃ id tx, cb.slotShortId slot = some id ∧ r.block.vtx[slot]? = some tx
          ∧ Resolves sources cb.siphashKey id tx
  missing
    : ∀ slot ∈ r.missing, slot < cb.total ∧ cb.isPrefilled slot = false
        ∧ ∃ id, cb.slotShortId slot = some id ∧ ∀ tx, ¬ Resolves sources cb.siphashKey id tx
  increasing : r.missing.Pairwise (· < ·)

variable {cb : CompactBlockMsg} {slot : Nat}

theorem Placed.getElem?_eq_none_iff {slots : List (Option Wire.Transaction)} {total : Nat}
    (placed : Placed cb.prefilled (List.replicate total none) slots) (inside : slot < total)
    : slots[slot]? = some none ↔ cb.isPrefilled slot = false := by
  constructor
  · intro free
    rw [CompactBlockMsg.isPrefilled, List.any_eq_false]
    intro entry member same
    have filled := placed.filled entry member
    rw [of_decide_eq_true same, free] at filled
    cases filled
  · intro free
    rw [CompactBlockMsg.isPrefilled, List.any_eq_false] at free
    apply placed.unfilled
    · rw [List.getElem?_replicate, if_pos inside]
    · intro entry member same
      exact free entry member (decide_eq_true same)

theorem Placed.countP_take {slots : List (Option Wire.Transaction)} {total : Nat}
    (placed : Placed cb.prefilled (List.replicate total none) slots) (inside : slot ≤ total)
    : (slots.take slot).countP Option.isNone
        = ((List.range slot).filter fun other => !cb.isPrefilled other).length := by
  induction slot with
  | zero => rfl
  | succ slot ih =>
    have length := placed.length
    rw [List.length_replicate] at length
    have within : slot < slots.length := by omega
    have here : slots[slot]? = some none ↔ cb.isPrefilled slot = false :=
      placed.getElem?_eq_none_iff inside
    rw [List.take_add_one, List.range_succ, List.filter_append, List.length_append,
      List.countP_append, ih (Nat.le_of_succ_le inside)]
    congr 1
    rw [List.getElem?_eq_getElem within] at here ⊢
    cases content : slots[slot] with
    | none =>
      rw [content] at here
      simp [here.mp rfl]
    | some tx =>
      rw [content] at here
      have taken : cb.isPrefilled slot = true := by
        rw [← Bool.not_eq_false]
        intro free
        cases here.mpr free
      simp [taken]

theorem mem_cbCollectMissing {slots : List (Option Wire.Transaction)}
    : slot ∈ cbCollectMissing slots ↔ slots[slot]? = some none := by
  rw [cbCollectMissing, List.mem_filter, List.mem_range, decide_eq_true_eq]
  constructor
  · exact And.right
  · intro free
    exact ⟨(List.getElem?_eq_some_iff.mp free).1, free⟩

theorem reconstruct_rebuilt {r : Reconstruction} (done : reconstruct mempoolTxs extraTxs cb = .ok r)
    : Rebuilt cb (mempoolTxs ++ extraTxs) r := by
  rw [reconstruct] at done
  dsimp only at done
  split at done
  · cases done
  · obtain ⟨slots, placedOk, next⟩ := Lib.FoldM.bind_eq_ok.mp done
    obtain ⟨out, resolvedOk, whole⟩ := Lib.FoldM.bind_eq_ok.mp next
    cases whole
    have placed := cbPlacePrefilled_spec placedOk
    have matched := cbResolveShortIds_spec resolvedOk
    have length : out.length = cb.total := by
      rw [matched.length, placed.length, List.length_replicate]
      rfl
    have content : ∀ slot < cb.total, cb.isPrefilled slot = false →
        ∃ id content, cb.slotShortId slot = some id
          ∧ resolveSlot mempoolTxs extraTxs
              (cbBuildSidTable mempoolTxs extraTxs cb.siphashKey) id = .ok content
          ∧ out[slot]? = some content := by
      intro slot inside free
      have unfilled := (placed.getElem?_eq_none_iff inside).mpr free
      obtain ⟨id, held, shortId, resolved, read⟩ := matched.resolved slot unfilled
      rw [placed.countP_take (Nat.le_of_lt inside)] at shortId
      exact ⟨id, held, shortId, resolved, read⟩
    constructor
    · rfl
    · rw [List.length_map, length]
    · intro entry member
      have filled := matched.kept _ _ (placed.filled entry member)
      refine ⟨?_, ?_⟩
      · rw [List.getElem?_map, filled]
        rfl
      · rw [mem_cbCollectMissing, filled]
        simp
    · intro slot inside free present
      obtain ⟨id, held, shortId, resolved, read⟩ := content slot inside free
      cases held with
      | none => exact absurd (mem_cbCollectMissing.mpr read) present
      | some tx =>
        refine ⟨id, tx, shortId, ?_, (resolveSlot_spec resolved).1 tx rfl⟩
        rw [List.getElem?_map, read]
        rfl
    · intro slot absent
      rw [mem_cbCollectMissing] at absent
      have inside := (List.getElem?_eq_some_iff.mp absent).1
      rw [length] at inside
      have free : cb.isPrefilled slot = false := by
        rw [← placed.getElem?_eq_none_iff inside]
        cases before : slots[slot]? with
        | none =>
          rw [List.getElem?_eq_none_iff, placed.length, List.length_replicate] at before
          exact absurd inside (Nat.not_lt.mpr before)
        | some held =>
          cases held with
          | none => rfl
          | some tx =>
            rw [matched.kept slot tx before] at absent
            cases absent
      obtain ⟨id, held, shortId, resolved, read⟩ := content slot inside free
      rw [read] at absent
      cases absent
      exact ⟨inside, free, id, shortId, (resolveSlot_spec resolved).2 rfl⟩
    · exact List.pairwise_lt_range.filter _

end Z23.Net.CompactBlocks
