import Mathlib.Algebra.Order.Field.Rat
import Mathlib.Data.Prod.Lex
import Mathlib.Tactic.FieldSimp
import Z23.Lib.BitGroups
import Z23.Lib.Codec
import Z23.Lib.Smallest

/-!
The cache of signed sale quotes: what gossip puts in, what expiry and the bounds take out, and
the signs a browse by price shows.
-/

namespace Z23.Market

open Z23.Lib.Bytes Z23.Lib.BitGroups Z23.Lib.Codec Z23.Lib.Smallest

-- Quotes

structure Quote where
  schemaVersion : Nat
  networkGenesisRoot : Blob 32
  sellerPubkey : Blob 32
  nonce : UInt64
  tokenId : Blob 32
  tokenAmount : UInt64
  zclAmount : UInt64
  issuedUnix : Int
  expiresUnix : Int
  sellerSignature : Blob 64
deriving DecidableEq

inductive QuoteError where
  | version
  | wireSize
  | wireMagic
  | rootZero
  | pubkeyZero
  | tokenIdZero
  | nonce
  | amount
  | timeOrder
  | lifetime
  | signature
  | networkMismatch
  | expired
  | notYetValid
deriving DecidableEq

/-- SHA3-256 and the Ed25519 check. -/
structure Crypto where
  sha3 : List UInt8 → Blob 32
  ed25519Verify : (signature : Blob 64) → (message pubkey : Blob 32) → Bool

def bytesAnySet {size : Nat} (blob : Blob size) : Bool := blob.data.any (· ≠ 0)

/-- The first thing wrong with the fields of a quote. -/
def quoteFields (quote : Quote) (requireSignature : Bool) : Option QuoteError :=
  if quote.schemaVersion ≠ 1 then some .version
  else if !bytesAnySet quote.networkGenesisRoot then some .rootZero
  else if !bytesAnySet quote.sellerPubkey then some .pubkeyZero
  else if !bytesAnySet quote.tokenId then some .tokenIdZero
  else if quote.nonce = 0 then some .nonce
  else if quote.tokenAmount = 0 ∨ quote.zclAmount = 0 then some .amount
  else if quote.issuedUnix ≤ 0 ∨ quote.expiresUnix ≤ quote.issuedUnix then some .timeOrder
  else if quote.expiresUnix - quote.issuedUnix > 60 then some .lifetime
  else if requireSignature ∧ !bytesAnySet quote.sellerSignature then some .signature
  else none

def quoteValidate (quote : Quote) : Option QuoteError := quoteFields quote true

def quoteValidateAt (quote : Quote) (now : Int) : Option QuoteError :=
  match quoteValidate quote with
  | some error => some error
  | none =>
    if now < quote.issuedUnix then some .notYetValid
    else if now ≥ quote.expiresUnix then some .expired
    else none

def quoteMagic : List UInt8 := [90, 83, 87, 81, 84, 69, 13, 10]

/-- The 64 bits of a signed time. -/
def timeBytes (time : Int) : List UInt8 := bytesLE 8 (time % 2 ^ 64).toNat

def timeOfBits (bits : Nat) : Int := if bits < 2 ^ 63 then bits else (bits : Int) - 2 ^ 64

def bodyBytes (quote : Quote) : List UInt8 :=
  quoteMagic ++ bytesLE 2 quote.schemaVersion ++ quote.networkGenesisRoot.data
    ++ quote.sellerPubkey.data ++ bytesLE 8 quote.nonce.toNat ++ quote.tokenId.data
    ++ bytesLE 8 quote.tokenAmount.toNat ++ bytesLE 8 quote.zclAmount.toNat
    ++ timeBytes quote.issuedUnix ++ timeBytes quote.expiresUnix

def quoteBody (quote : Quote) : Except QuoteError (List UInt8) :=
  match quoteFields quote false with
  | some error => .error error
  | none => .ok (bodyBytes quote)

def quoteEncode (quote : Quote) : Except QuoteError (List UInt8) :=
  match quoteValidate quote with
  | some error => .error error
  | none => (quoteBody quote).map (· ++ quote.sellerSignature.data)

/-- The fields behind the magic, which fill the wire. -/
def readQuote (wire : List UInt8) : Option Quote := do
  let (schemaVersion, wire) ← takeBytes 2 wire
  let (networkGenesisRoot, wire) ← readBlob 32 wire
  let (sellerPubkey, wire) ← readBlob 32 wire
  let (nonce, wire) ← takeBytes 8 wire
  let (tokenId, wire) ← readBlob 32 wire
  let (tokenAmount, wire) ← takeBytes 8 wire
  let (zclAmount, wire) ← takeBytes 8 wire
  let (issued, wire) ← takeBytes 8 wire
  let (expires, wire) ← takeBytes 8 wire
  let (sellerSignature, _) ← readBlob 64 wire
  some {
    schemaVersion := natLE schemaVersion
    networkGenesisRoot
    sellerPubkey
    nonce := UInt64.ofNat (natLE nonce)
    tokenId
    tokenAmount := UInt64.ofNat (natLE tokenAmount)
    zclAmount := UInt64.ofNat (natLE zclAmount)
    issuedUnix := timeOfBits (natLE issued)
    expiresUnix := timeOfBits (natLE expires)
    sellerSignature
  }

/-- A quote with the fields a decoded wire is checked for. -/
abbrev ValidQuote := { quote : Quote // quoteValidate quote = none }

def quoteDecode (wire : List UInt8) : Except QuoteError ValidQuote :=
  if wire.length ≠ 210 then .error .wireSize
  else if wire.take 8 ≠ quoteMagic then .error .wireMagic
  else
    match readQuote (wire.drop 8) with
    | none => .error .wireSize
    | some quote =>
      match valid : quoteValidate quote with
      | some error => .error error
      | none => .ok ⟨quote, valid⟩

/-- The ASCII text `zcl.zswap.quote.v1` with its NUL. -/
def quoteDomain : List UInt8 :=
  [122, 99, 108, 46, 122, 115, 119, 97, 112, 46, 113, 117, 111, 116, 101, 46, 118, 49, 0]

/-- The ASCII text `zcl.zswap.quote.root.v1` with its NUL. -/
def quoteRootDomain : List UInt8 :=
  [122, 99, 108, 46, 122, 115, 119, 97, 112, 46, 113, 117, 111, 116, 101, 46, 114, 111, 111, 116,
    46, 118, 49, 0]

def quoteBodyRoot (crypto : Crypto) (quote : Quote) : Except QuoteError (Blob 32) :=
  (quoteBody quote).map fun body => crypto.sha3 (quoteDomain ++ body)

def quoteRoot (crypto : Crypto) (quote : Quote) : Except QuoteError (Blob 32) :=
  (quoteEncode quote).map fun wire => crypto.sha3 (quoteRootDomain ++ wire)

def quoteVerifyAt (crypto : Crypto) (quote : Quote) (network : Blob 32) (now : Int)
    : Option QuoteError :=
  match quoteValidateAt quote now with
  | some error => some error
  | none =>
    if quote.networkGenesisRoot ≠ network then some .networkMismatch
    else
      match quoteBodyRoot crypto quote with
      | .error error => some error
      | .ok root =>
        if crypto.ed25519Verify quote.sellerSignature root quote.sellerPubkey then none
        else some .signature

-- The cache

def maxAds : Nat := 256
def peerSlots : Nat := 64
def peerWindowSecs : Int := 10
def peerWindowMaxAds : UInt64 := 8
def queryCap : Nat := 64

structure Ad where
  quote : ValidQuote
  quoteRoot : Blob 32
  firstSeenUnix : Int
  lastSeenUnix : Int
  seenCount : UInt64
deriving DecidableEq

structure PeerWindow where
  used : Bool := false
  peerId : Int := 0
  windowStartUnix : Int := 0
  newAdsInWindow : UInt64 := 0
deriving DecidableEq

structure Counters where
  wiresSeen : UInt64 := 0
  adsStored : UInt64 := 0
  adsDeduped : UInt64 := 0
  adsDroppedInvalid : UInt64 := 0
  adsDroppedExpired : UInt64 := 0
  adsDroppedRate : UInt64 := 0
  adsPruned : UInt64 := 0
  adsEvicted : UInt64 := 0
deriving DecidableEq

structure Yardsale where
  ads : List Ad := []
  peers : List PeerWindow := List.replicate peerSlots {}
  counters : Counters := {}
deriving DecidableEq

def unitPriceCmp (aZcl aToken bZcl bToken : UInt64) : Int :=
  let lhs := aZcl.toNat * bToken.toNat % 2 ^ 128
  let rhs := bZcl.toNat * aToken.toNat % 2 ^ 128
  if lhs < rhs then -1 else if lhs > rhs then 1 else 0

def adPriceQsortCmp (a b : Ad) : Int :=
  let c := unitPriceCmp a.quote.1.zclAmount a.quote.1.tokenAmount
    b.quote.1.zclAmount b.quote.1.tokenAmount
  if c ≠ 0 then c
  else if a.quote.1.zclAmount < b.quote.1.zclAmount then -1
  else if a.quote.1.zclAmount > b.quote.1.zclAmount then 1
  else if memcmpLt a.quoteRoot.data b.quoteRoot.data then -1
  else if memcmpLt b.quoteRoot.data a.quoteRoot.data then 1
  else 0

/-- The ads before the cursor stay; an expired ad at the cursor gives its place to the last. -/
def pruneLoop (now : Int) : (left : Nat) → (kept rest : List Ad) → List Ad
  | 0, kept, rest => kept ++ rest
  | _ + 1, kept, [] => kept
  | left + 1, kept, ad :: rest =>
    if ad.quote.1.expiresUnix ≤ now then
      pruneLoop now left kept (rest.getLast?.toList ++ rest.dropLast)
    else pruneLoop now left (kept ++ [ad]) rest

def pruneAds (now : Int) (ads : List Ad) : List Ad := pruneLoop now ads.length [] ads

def prune (now : Int) (sale : Yardsale) : Yardsale :=
  let ads := pruneAds now sale.ads
  let pruned := UInt64.ofNat (sale.ads.length - ads.length)
  { sale with
    ads
    counters := { sale.counters with adsPruned := sale.counters.adsPruned + pruned } }

def yardsaleCount (now : Int) (sale : Yardsale) : Yardsale × Nat :=
  let sale := prune now sale
  (sale, sale.ads.length)

/-- The slot of the peer, the first one free, or the stalest. -/
def peerSlot (peerId : Int) : List PeerWindow → (index stalest : Nat) → (oldest : Int) → Nat
  | [], _, stalest, _ => stalest
  | peer :: peers, index, stalest, oldest =>
    if !peer.used ∨ peer.peerId = peerId then index
    else if peer.windowStartUnix < oldest then
      peerSlot peerId peers (index + 1) index peer.windowStartUnix
    else peerSlot peerId peers (index + 1) stalest oldest

def peerWindowAdmit (peerId now : Int) (peers : List PeerWindow) : List PeerWindow × Bool :=
  let index := peerSlot peerId peers 0 0 (peers.headD {}).windowStartUnix
  let slot := peers.getD index {}
  let slot :=
    if !slot.used ∨ slot.peerId ≠ peerId ∨ now - slot.windowStartUnix ≥ peerWindowSecs then
      { used := true, peerId, windowStartUnix := now, newAdsInWindow := 0 }
    else slot
  if slot.newAdsInWindow ≥ peerWindowMaxAds then (peers.set index slot, false)
  else (peers.set index { slot with newAdsInWindow := slot.newAdsInWindow + 1 }, true)

/-- The cache after a known root was seen once more. -/
def dedupHit (root : Blob 32) (now : Int) : List Ad → Option (List Ad)
  | [] => none
  | ad :: ads =>
    if ad.quoteRoot = root then
      some ({ ad with seenCount := ad.seenCount + 1, lastSeenUnix := now } :: ads)
    else (dedupHit root now ads).map (ad :: ·)

def stalestAd (ads : List Ad) : (index stalest : Nat) → (oldest : Int) → Nat :=
  match ads with
  | [] => fun _ stalest _ => stalest
  | ad :: ads => fun index stalest oldest =>
    if ad.lastSeenUnix < oldest then stalestAd ads (index + 1) index ad.lastSeenUnix
    else stalestAd ads (index + 1) stalest oldest

def storeNewAd (quote : ValidQuote) (root : Blob 32) (now : Int) (sale : Yardsale) : Yardsale :=
  let ad : Ad := ⟨quote, root, now, now, 1⟩
  let stored := { sale.counters with adsStored := sale.counters.adsStored + 1 }
  match sale.ads with
  | first :: others =>
    if sale.ads.length ≥ maxAds then
      { sale with
        ads := sale.ads.set (stalestAd others 1 0 first.lastSeenUnix) ad
        counters := { stored with adsEvicted := stored.adsEvicted + 1 } }
    else { sale with ads := sale.ads ++ [ad], counters := stored }
  | [] => { sale with ads := [ad], counters := stored }

inductive Ingest where
  | new
  | dedup
  | invalid
  | expired
  | rateLimited
deriving DecidableEq

def dropInvalid (sale : Yardsale) : Yardsale × Ingest :=
  ({ sale with counters :=
      { sale.counters with adsDroppedInvalid := sale.counters.adsDroppedInvalid + 1 } }, .invalid)

/-- The steps of an ingest under the lock, for a verified quote and its root. -/
def ingestVerified (quote : ValidQuote) (root : Blob 32) (peerId now : Int) (sale : Yardsale)
    : Yardsale × Ingest :=
  let sale := prune now sale
  match dedupHit root now sale.ads with
  | some ads =>
    ({ sale with
        ads
        counters := { sale.counters with adsDeduped := sale.counters.adsDeduped + 1 } }, .dedup)
  | none =>
    match peerWindowAdmit peerId now sale.peers with
    | (peers, false) =>
      ({ sale with
          peers
          counters := { sale.counters with
            adsDroppedRate := sale.counters.adsDroppedRate + 1 } }, .rateLimited)
    | (peers, true) => (storeNewAd quote root now { sale with peers }, .new)

def ingestWire (crypto : Crypto) (wire : List UInt8) (network : Blob 32) (peerId now : Int)
    (sale : Yardsale)
    : Yardsale × Ingest :=
  let sale := { sale with counters :=
    { sale.counters with wiresSeen := sale.counters.wiresSeen + 1 } }
  match quoteDecode wire with
  | .error _ => dropInvalid sale
  | .ok quote =>
    match quoteVerifyAt crypto quote.1 network now with
    | some .expired =>
      ({ sale with counters :=
          { sale.counters with adsDroppedExpired := sale.counters.adsDroppedExpired + 1 } },
        .expired)
    | some _ => dropInvalid sale
    | none =>
      match quoteRoot crypto quote.1 with
      | .error _ => (sale, .invalid)
      | .ok root => ingestVerified quote root peerId now sale

def matching (token : Blob 32) (ads : List Ad) : List Ad :=
  ads.filter fun ad => ad.quote.1.tokenId = token

/-- `qsort` of the ads by their comparison. -/
def qsortAds (ads : List Ad) : List Ad := ads.mergeSort fun a b => adPriceQsortCmp a b ≤ 0

def bestForToken (token : Blob 32) (now : Int) (max : Nat) (sale : Yardsale)
    : Yardsale × List Ad :=
  let sale := prune now sale
  (sale, (qsortAds ((matching token sale.ads).take queryCap)).take max)

inductive Step where
  | ingest (wire : List UInt8) (network : Blob 32) (peerId now : Int)
  | count (now : Int)
  | best (token : Blob 32) (now : Int) (max : Nat)

def step (crypto : Crypto) (sale : Yardsale) : Step → Yardsale
  | .ingest wire network peerId now => (ingestWire crypto wire network peerId now sale).1
  | .count now => (yardsaleCount now sale).1
  | .best token now max => (bestForToken token now max sale).1

def run (crypto : Crypto) (steps : List Step) : Yardsale := steps.foldl (step crypto) {}

-- The order of the ads

/-- Price, asked amount and root of an ad, in the order they are compared. -/
def priceKey (ad : Ad) : ℚ ×ₗ ℕ ×ₗ ℕ :=
  toLex ((ad.quote.1.zclAmount.toNat : ℚ) / ad.quote.1.tokenAmount.toNat,
    toLex (ad.quote.1.zclAmount.toNat, natBE ad.quoteRoot.data))

theorem ite_some_eq_none {refused : Prop} [Decidable refused] {error : QuoteError}
    {rest : Option QuoteError}
    : (if refused then some error else rest) = none ↔ ¬refused ∧ rest = none := by
  split <;> simp_all

theorem tokenAmount_pos (quote : ValidQuote) : 0 < quote.1.tokenAmount.toNat := by
  obtain ⟨quote, valid⟩ := quote
  simp only [quoteValidate, quoteFields, ite_some_eq_none] at valid
  obtain ⟨-, -, -, -, -, amounts, -⟩ := valid
  rw [Nat.pos_iff_ne_zero]
  intro zero
  exact amounts (.inl (UInt64.toNat_inj.mp zero))

theorem product_exact (a b : UInt64) : a.toNat * b.toNat % 2 ^ 128 = a.toNat * b.toNat := by
  apply Nat.mod_eq_of_lt
  calc a.toNat * b.toNat < 2 ^ 64 * 2 ^ 64 := Nat.mul_lt_mul'' a.toNat_lt b.toNat_lt
    _ = 2 ^ 128 := by norm_num

theorem unitPriceCmp_eq (aZcl bZcl : UInt64) {aToken bToken : UInt64} (aPos : 0 < aToken.toNat)
    (bPos : 0 < bToken.toNat)
    : unitPriceCmp aZcl aToken bZcl bToken =
      if (aZcl.toNat : ℚ) / aToken.toNat < (bZcl.toNat : ℚ) / bToken.toNat then -1
      else if (bZcl.toNat : ℚ) / bToken.toNat < (aZcl.toNat : ℚ) / aToken.toNat then 1 else 0 := by
  have aPosRat : (0 : ℚ) < aToken.toNat := by exact_mod_cast aPos
  have bPosRat : (0 : ℚ) < bToken.toNat := by exact_mod_cast bPos
  rw [unitPriceCmp, product_exact, product_exact]
  simp only [div_lt_div_iff₀ aPosRat bPosRat, div_lt_div_iff₀ bPosRat aPosRat, gt_iff_lt]
  norm_cast

theorem memcmpLt_root (a b : Ad)
    : memcmpLt a.quoteRoot.data b.quoteRoot.data = true ↔
      natBE a.quoteRoot.data < natBE b.quoteRoot.data :=
  memcmpLt_iff_natBE (a.quoteRoot.size_data.trans b.quoteRoot.size_data.symm)

theorem adPriceQsortCmp_eq (a b : Ad)
    : adPriceQsortCmp a b =
      if priceKey a < priceKey b then -1 else if priceKey b < priceKey a then 1 else 0 := by
  simp only [adPriceQsortCmp, priceKey, memcmpLt_root, Prod.Lex.toLex_lt_toLex,
    unitPriceCmp_eq _ _ (tokenAmount_pos a.quote) (tokenAmount_pos b.quote),
    UInt64.lt_iff_toNat_lt, gt_iff_lt]
  rcases lt_trichotomy ((a.quote.1.zclAmount.toNat : ℚ) / a.quote.1.tokenAmount.toNat)
    ((b.quote.1.zclAmount.toNat : ℚ) / b.quote.1.tokenAmount.toNat) with below | same | above
  · simp [below]
  · rw [same]
    rcases lt_trichotomy a.quote.1.zclAmount.toNat b.quote.1.zclAmount.toNat
      with below | equal | above
    · simp [below]
    · simp [equal]
    · simp [above, above.asymm, above.ne']
  · simp [above, above.asymm, above.ne']

theorem adPriceQsortCmp_nonpos (a b : Ad) : adPriceQsortCmp a b ≤ 0 ↔ priceKey a ≤ priceKey b := by
  rw [adPriceQsortCmp_eq]
  rcases lt_trichotomy (priceKey a) (priceKey b) with below | same | above
  · simp [below, below.le]
  · simp [same]
  · simp [above, above.asymm, not_le.mpr above]

theorem adPriceQsortCmp_neg (a b : Ad) : adPriceQsortCmp a b < 0 ↔ priceKey a < priceKey b := by
  rw [adPriceQsortCmp_eq]
  rcases lt_trichotomy (priceKey a) (priceKey b) with below | same | above
  · simp [below]
  · simp [same]
  · simp [above, above.asymm]

theorem priceKey_root {a b : Ad} (same : priceKey a = priceKey b) : a.quoteRoot = b.quoteRoot := by
  have roots : natBE a.quoteRoot.data = natBE b.quoteRoot.data := by
    simp only [priceKey, toLex_inj, Prod.mk.injEq] at same
    exact same.2.2
  exact Blob.ext (natBE_inj (a.quoteRoot.size_data.trans b.quoteRoot.size_data.symm) roots)

-- Reachable caches

theorem pruneLoop_perm (now : Int) {left : Nat} {kept rest : List Ad} (enough : rest.length ≤ left)
    : (pruneLoop now left kept rest).Perm
      (kept ++ rest.filter fun ad => now < ad.quote.1.expiresUnix) := by
  induction left generalizing kept rest with
  | zero =>
    rw [List.length_eq_zero_iff.mp (Nat.le_zero.mp enough)]
    exact .rfl
  | succ left ih =>
    cases rest with
    | nil => simp [pruneLoop]
    | cons ad rest =>
      have fits : rest.length ≤ left := by simpa using enough
      rw [pruneLoop]
      split
      case isTrue expired =>
        have swapped : (rest.getLast?.toList ++ rest.dropLast).Perm rest := by
          rcases List.eq_nil_or_concat rest with rfl | ⟨front, last, rfl⟩
          · exact .rfl
          · simpa using (List.perm_append_singleton last front).symm
        rw [List.filter_cons_of_neg (by simpa using expired)]
        exact (ih (by rwa [swapped.length_eq])).trans ((swapped.filter _).append_left kept)
      case isFalse live =>
        rw [List.filter_cons_of_pos (by simpa using live)]
        simpa using @ih (kept ++ [ad]) rest fits

theorem pruneAds_perm (now : Int) (ads : List Ad)
    : (pruneAds now ads).Perm (ads.filter fun ad => now < ad.quote.1.expiresUnix) :=
  pruneLoop_perm now (Nat.le_refl _)

/-- No two ads have one root. -/
def Distinct (ads : List Ad) : Prop := (ads.map Ad.quoteRoot).Nodup

variable {sale : Yardsale}

theorem prune_distinct (distinct : Distinct sale.ads) (now : Int)
    : Distinct (prune now sale).ads :=
  (((pruneAds_perm now sale.ads).map _).nodup_iff).mpr
    (distinct.sublist (List.filter_sublist.map _))

variable {now : Int}

theorem dedupHit_some {root : Blob 32} {ads seen : List Ad}
    (hit : dedupHit root now ads = some seen)
    : seen.map Ad.quoteRoot = ads.map Ad.quoteRoot := by
  induction ads generalizing seen with
  | nil => cases hit
  | cons ad ads ih =>
    rw [dedupHit] at hit
    split at hit
    · cases hit
      rfl
    · obtain ⟨rest, found, rfl⟩ := Option.map_eq_some_iff.mp hit
      simp [ih found]

theorem dedupHit_none {root : Blob 32} {ads : List Ad}
    : dedupHit root now ads = none ↔ root ∉ ads.map Ad.quoteRoot := by
  induction ads with
  | nil => simp [dedupHit]
  | cons ad ads ih =>
    rw [dedupHit]
    split
    case isTrue same => simp [same]
    case isFalse other => simp [ih, Ne.symm other]

section

variable (distinct : Distinct sale.ads)
include distinct

theorem storeNewAd_distinct (quote : ValidQuote) {root : Blob 32} (now : Int)
    (fresh : root ∉ sale.ads.map Ad.quoteRoot)
    : Distinct (storeNewAd quote root now sale).ads := by
  rw [storeNewAd, Distinct]
  split
  case h_1 first others found =>
    split
    · rw [List.map_set]
      exact distinct.set fresh
    · rw [List.map_append]
      exact List.nodup_append.mpr ⟨distinct, List.nodup_singleton _, fun a old b new => by
        rw [List.map_singleton, List.mem_singleton] at new
        rw [new]
        exact ne_of_mem_of_not_mem old fresh⟩
  case h_2 => exact List.nodup_singleton _

theorem ingestVerified_distinct (quote : ValidQuote) (root : Blob 32) (peerId now : Int)
    : Distinct (ingestVerified quote root peerId now sale).1.ads := by
  have pruned := prune_distinct distinct now
  rw [ingestVerified]
  split
  case h_1 seen hit => rwa [Distinct, dedupHit_some hit]
  case h_2 miss =>
    split
    · exact pruned
    · refine storeNewAd_distinct ?_ quote now (dedupHit_none.mp miss)
      exact pruned

theorem ingestWire_distinct (crypto : Crypto) (wire : List UInt8) (network : Blob 32)
    (peerId now : Int)
    : Distinct (ingestWire crypto wire network peerId now sale).1.ads := by
  rw [ingestWire]
  split
  · exact distinct
  · split
    · exact distinct
    · exact distinct
    · split
      · exact distinct
      · refine ingestVerified_distinct ?_ _ _ _ _
        exact distinct

theorem step_distinct (crypto : Crypto) (next : Step) : Distinct (step crypto sale next).ads := by
  cases next with
  | ingest wire network peerId now => exact ingestWire_distinct distinct crypto wire network peerId now
  | count now => exact prune_distinct distinct now
  | best token now max => exact prune_distinct distinct now

end

theorem run_distinct (crypto : Crypto) (steps : List Step) : Distinct (run crypto steps).ads := by
  rw [run]
  induction steps using List.reverseRecOn with
  | nil => exact List.nodup_nil
  | append_singleton steps next ih =>
    rw [List.foldl_append]
    exact step_distinct ih crypto next

-- Browsing

/-- The ads a browse for the token at this time is about. -/
def liveFor (token : Blob 32) (now : Int) (sale : Yardsale) : List Ad :=
  matching token (sale.ads.filter fun ad => now < ad.quote.1.expiresUnix)

/-- Every ad that the collection leaves out is above `max` of those it takes. -/
def LeftOutAbove (token : Blob 32) (now : Int) (max : Nat) (sale : Yardsale) : Prop :=
  let ads := matching token (pruneAds now sale.ads)
  ∀ late ∈ ads.drop queryCap, max ≤ (ads.take queryCap).countP (adPriceQsortCmp · late < 0)

theorem bestForToken_iff (distinct : Distinct sale.ads) (token : Blob 32) (now : Int) {max : Nat}
    (small : max ≤ queryCap)
    : IsSmallest priceKey max (liveFor token now sale) (bestForToken token now max sale).2 ↔
      LeftOutAbove token now max sale := by
  have live : (matching token (pruneAds now sale.ads)).Perm (liveFor token now sale) :=
    (pruneAds_perm now sale.ads).filter _
  rw [LeftOutAbove]
  simp only [adPriceQsortCmp_neg]
  rw [bestForToken, prune]
  generalize hads : matching token (pruneAds now sale.ads) = ads at live ⊢
  have roots : (ads.map Ad.quoteRoot).Nodup := by
    rw [← hads]
    exact List.Nodup.sublist (List.filter_sublist.map _) (prune_distinct distinct now)
  have keys : (ads.map priceKey).Nodup := by
    refine List.pairwise_map.mpr ((List.pairwise_map.mp roots).imp ?_)
    intro a b apart same
    exact apart (priceKey_root same)
  have frontKeys : ((ads.take queryCap).map priceKey).Nodup :=
    keys.sublist ((List.take_sublist _ _).map _)
  have full : ads.drop queryCap = [] ∨ max ≤ (ads.take queryCap).length := by
    rw [List.drop_eq_nil_iff, List.length_take]
    omega
  have chosen := take_isSmallest_iff (List.mergeSort_perm _ _)
    (mergeSort_ascending (fun a b => decide_eq_true_iff.trans (adPriceQsortCmp_nonpos a b))
      frontKeys) (by rwa [List.take_append_drop]) full
  rw [List.take_append_drop] at chosen
  rw [← chosen]
  exact ⟨fun smallest => smallest.perm live.symm, fun smallest => smallest.perm live⟩

theorem bestForToken_exact_iff (crypto : Crypto) (steps : List Step) (token : Blob 32) (now : Int)
    {max : Nat} (small : max ≤ queryCap)
    : IsSmallest priceKey max (liveFor token now (run crypto steps))
        (bestForToken token now max (run crypto steps)).2 ↔
      LeftOutAbove token now max (run crypto steps) :=
  bestForToken_iff (run_distinct crypto steps) token now small

-- A crowded cache

theorem quoteFields_unsigned {quote : Quote} (valid : quoteValidate quote = none)
    : quoteFields quote false = none := by
  simp only [quoteValidate, quoteFields, ite_some_eq_none] at valid ⊢
  obtain ⟨version, network, pubkey, token, nonce, amounts, order, lifetime, -⟩ := valid
  exact ⟨version, network, pubkey, token, nonce, amounts, order, lifetime, by simp⟩

theorem quoteEncode_valid {quote : Quote} (valid : quoteValidate quote = none)
    : quoteEncode quote = .ok (bodyBytes quote ++ quote.sellerSignature.data) := by
  rw [quoteEncode, valid, quoteBody, quoteFields_unsigned valid]
  rfl

theorem timeOfBits_timeBytes {time : Int} (nonneg : 0 ≤ time) (fits : time < 2 ^ 63)
    : timeOfBits (natLE (timeBytes time)) = time := by
  rw [timeBytes, natLE_bytesLE (by omega), timeOfBits]
  split <;> omega

theorem natLE_toNat (value : UInt64) : UInt64.ofNat (natLE (bytesLE 8 value.toNat)) = value := by
  rw [natLE_bytesLE value.toNat_lt, UInt64.ofNat_toNat]

theorem length_bodyBytes (quote : Quote) : (bodyBytes quote).length = 146 := by
  simp [bodyBytes, quoteMagic, timeBytes, Blob.size_data]

theorem quoteDecode_wire {quote : Quote} (valid : quoteValidate quote = none)
    (fits : quote.expiresUnix < 2 ^ 63)
    : quoteDecode (bodyBytes quote ++ quote.sellerSignature.data) = .ok ⟨quote, valid⟩ := by
  have checked := valid
  simp only [quoteValidate, quoteFields, ite_some_eq_none] at checked
  obtain ⟨notOther, -, -, -, -, -, order, -⟩ := checked
  have version : quote.schemaVersion = 1 := not_not.mp notOther
  have magic : quoteMagic.length = 8 := rfl
  have read : readQuote ((bodyBytes quote ++ quote.sellerSignature.data).drop 8) = some quote := by
    have last := readBlob_data 64 quote.sellerSignature []
    rw [List.append_nil] at last
    simp only [bodyBytes, List.append_assoc]
    rw [List.drop_left' magic, readQuote, takeBytes_bytesLE]
    simp only [Option.bind_eq_bind, Option.bind_some, readBlob_data 32 _ _, takeBytes_bytesLE,
      timeBytes, last, natLE_toNat, version]
    have issued : timeOfBits (natLE (timeBytes quote.issuedUnix)) = quote.issuedUnix :=
      timeOfBits_timeBytes (by omega) (by omega)
    have expires : timeOfBits (natLE (timeBytes quote.expiresUnix)) = quote.expiresUnix :=
      timeOfBits_timeBytes (by omega) fits
    have one : natLE (bytesLE 2 1) = 1 := rfl
    rw [timeBytes] at issued expires
    rw [issued, expires, one, ← version]
  have front : (bodyBytes quote ++ quote.sellerSignature.data).take 8 = quoteMagic := by
    simp only [bodyBytes, List.append_assoc]
    exact List.take_left' magic
  rw [quoteDecode, if_neg (by simp [length_bodyBytes, Blob.size_data]), if_neg (not_not.mpr front),
    read]
  dsimp only
  split
  case h_1 error found => simp [valid] at found
  case h_2 => rfl

theorem pruneLoop_live {left : Nat} {kept rest : List Ad}
    (live : ∀ ad ∈ rest, now < ad.quote.1.expiresUnix)
    : pruneLoop now left kept rest = kept ++ rest := by
  induction left generalizing kept rest with
  | zero => rfl
  | succ left ih =>
    cases rest with
    | nil => simp [pruneLoop]
    | cons ad rest =>
      obtain ⟨first, others⟩ := List.forall_mem_cons.mp live
      rw [pruneLoop, if_neg (not_le.mpr first), ih others, List.append_assoc]
      rfl

theorem ingestWire_appends {crypto : Crypto} {quote : Quote} {network root : Blob 32} {peerId : Int}
    (valid : quoteValidate quote = none) (fits : quote.expiresUnix < 2 ^ 63)
    (verified : quoteVerifyAt crypto quote network now = none)
    (rooted : quoteRoot crypto quote = .ok root)
    (live : ∀ ad ∈ sale.ads, now < ad.quote.1.expiresUnix)
    (fresh : root ∉ sale.ads.map Ad.quoteRoot)
    (admitted : (peerWindowAdmit peerId now sale.peers).2 = true) (room : sale.ads.length < maxAds)
    (result : Yardsale)
    (ran : (ingestWire crypto (bodyBytes quote ++ quote.sellerSignature.data) network peerId now
      sale).1 = result)
    : result.ads = sale.ads ++ [⟨⟨quote, valid⟩, root, now, now, 1⟩] ∧
      result.peers = (peerWindowAdmit peerId now sale.peers).1 := by
  have kept : pruneAds now sale.ads = sale.ads := pruneLoop_live live
  rw [ingestWire, quoteDecode_wire valid fits] at ran
  simp only [verified, rooted, ingestVerified, prune, kept, dedupHit_none.mpr fresh] at ran
  obtain ⟨peers, admission⟩ : ∃ peers, peerWindowAdmit peerId now sale.peers = (peers, true) :=
    ⟨_, Prod.ext rfl admitted⟩
  rw [admission] at ran ⊢
  rw [← ran]
  simp only [storeNewAd]
  split
  case h_1 first others found =>
    rw [if_neg (by omega)]
    exact ⟨rfl, rfl⟩
  case h_2 none =>
    rw [none]
    exact ⟨rfl, rfl⟩

def blobOf (size value : Nat) : Blob size := ⟨bytesLE size value, length_bytesLE size value⟩

/-- A thousand units of one token, which the last of the sellers asks less for. -/
def sampleQuote (index : Fin 65) : Quote where
  schemaVersion := 1
  networkGenesisRoot := blobOf 32 1
  sellerPubkey := blobOf 32 1
  nonce := UInt64.ofNat (index + 1)
  tokenId := blobOf 32 1
  tokenAmount := 1000
  zclAmount := if index < 64 then 2 else 1
  issuedUnix := 1
  expiresUnix := 61
  sellerSignature := blobOf 64 (index + 1)

/-- A hash that tells the signatures at the end of the sample wires apart. -/
def sampleCrypto : Crypto where
  sha3 bytes := blobOf 32 (natLE (bytes.drop 170))
  ed25519Verify _ _ _ := true

theorem sampleQuote_valid : ∀ index, quoteValidate (sampleQuote index) = none := by decide +kernel

def sampleAd (index : Fin 65) : Ad :=
  ⟨⟨sampleQuote index, sampleQuote_valid index⟩, blobOf 32 (index + 1), 1, 1, 1⟩

/-- Eight wires from each peer within one second. -/
def crowd (count : Nat) : List Step :=
  ((List.finRange 65).take count).map fun index =>
    .ingest (bodyBytes (sampleQuote index) ++ (sampleQuote index).sellerSignature.data)
      (blobOf 32 1) (index.val / 8 : Nat) 1

def crowdPeers (count : Nat) : List PeerWindow :=
  ((List.finRange 65).take count).foldl
    (fun peers index => (peerWindowAdmit (index.val / 8 : Nat) 1 peers).1)
    (List.replicate peerSlots {})

theorem sampleQuote_root (index : Fin 65)
    : quoteRoot sampleCrypto (sampleQuote index) = .ok (blobOf 32 (index + 1)) := by
  have length : (quoteRootDomain ++ bodyBytes (sampleQuote index)).length = 170 := by
    rw [List.length_append, length_bodyBytes]
    rfl
  have number : natLE (bytesLE 64 (index + 1)) = index + 1 := natLE_bytesLE (by omega)
  rw [quoteRoot, quoteEncode_valid (sampleQuote_valid index)]
  simp only [Except.map, sampleCrypto, ← List.append_assoc]
  rw [List.drop_left' length]
  exact congrArg (fun value => Except.ok (blobOf 32 value)) number

theorem take_crowd {count : Nat} (small : count < 65)
    : (List.finRange 65).take (count + 1) = (List.finRange 65).take count ++ [⟨count, small⟩] := by
  rw [List.take_succ_eq_append_getElem (by simpa using small), List.getElem_finRange]
  rfl

theorem crowd_run {count : Nat} (small : count ≤ 65)
    : (run sampleCrypto (crowd count)).ads = ((List.finRange 65).take count).map sampleAd ∧
      (run sampleCrypto (crowd count)).peers = crowdPeers count := by
  induction count with
  | zero => exact ⟨rfl, rfl⟩
  | succ count ih =>
    obtain ⟨ads, peers⟩ := ih (by omega)
    have verified : ∀ index,
        quoteVerifyAt sampleCrypto (sampleQuote index) (blobOf 32 1) 1 = none := by
      decide +kernel
    have admitted : ∀ index : Fin 65,
        (peerWindowAdmit (index.val / 8 : Nat) 1 (crowdPeers index)).2 = true := by
      decide +kernel
    have fresh : blobOf 32 (count + 1)
        ∉ (run sampleCrypto (crowd count)).ads.map Ad.quoteRoot := by
      rw [ads]
      intro found
      simp only [List.map_map, List.mem_map, List.mem_take_iff_getElem] at found
      obtain ⟨index, ⟨position, below, rfl⟩, same⟩ := found
      rw [List.getElem_finRange] at same
      have numbers := congrArg (fun blob => natLE blob.data) same
      simp only [Function.comp, sampleAd, blobOf, Fin.val_cast] at numbers
      rw [natLE_bytesLE (by omega), natLE_bytesLE (by omega)] at numbers
      omega
    have room : (run sampleCrypto (crowd count)).ads.length < maxAds := by
      rw [ads, maxAds, List.length_map, List.length_take]
      omega
    have live : ∀ ad ∈ (run sampleCrypto (crowd count)).ads, 1 < ad.quote.1.expiresUnix := by
      rw [ads]
      intro ad found
      obtain ⟨index, -, rfl⟩ := List.mem_map.mp found
      change (1 : Int) < 61
      decide
    have appended := ingestWire_appends (sampleQuote_valid ⟨count, small⟩) (by simp [sampleQuote])
      (verified _) (sampleQuote_root _) live fresh (by rw [peers]; exact admitted ⟨count, small⟩)
      room (run sampleCrypto (crowd (count + 1)))
      (by unfold crowd; rw [take_crowd small, List.map_append, run, run, List.foldl_append]; rfl)
    rw [appended.1, appended.2, ads, peers, take_crowd small, List.map_append]
    refine ⟨rfl, ?_⟩
    rw [crowdPeers, crowdPeers, take_crowd small, List.foldl_append]
    rfl

/-- The ad of the last seller is cheaper than the one shown. -/
theorem crowded_best_misses_cheapest
    : 1 ≤ queryCap ∧
      ¬IsSmallest priceKey 1 (liveFor (blobOf 32 1) 1 (run sampleCrypto (crowd 65)))
        (bestForToken (blobOf 32 1) 1 1 (run sampleCrypto (crowd 65))).2 := by
  refine ⟨by decide, ?_⟩
  rw [bestForToken_iff (run_distinct sampleCrypto _) _ _ (by decide), LeftOutAbove,
    (crowd_run (Nat.le_refl 65)).1]
  decide +kernel

theorem bestForToken_exact_two_ads
    : 2 ≤ queryCap ∧
      IsSmallest priceKey 2 (liveFor (blobOf 32 1) 1 (run sampleCrypto (crowd 2)))
        (bestForToken (blobOf 32 1) 1 2 (run sampleCrypto (crowd 2))).2 := by
  refine ⟨by decide, (bestForToken_exact_iff sampleCrypto (crowd 2) _ _ (by decide)).mpr ?_⟩
  rw [LeftOutAbove, (crowd_run (by decide)).1]
  decide +kernel

end Z23.Market
