import Z23.Lib.FoldM
import Z23.Vcs.PackageLock

/-!
The wire of a lock and its parser. The parser looks at one node at a time, and then at the order
of the nodes: distinct roots, and one node of depth zero, which is last. The wire does not carry
the edges.
-/

namespace Z23.Vcs

open Z23.Lib.Bytes
open Z23.Lib.Codec
open Z23.Lib.FoldM (bind_eq_ok)
open Z23.Lib.OrderedGraph

-- Writing

def lockMaxWireBytes : Nat := 64 * 1024

def lockVersion : Nat := 1

/-- The letters ZCLLCK and a line end. -/
def lockWireMagic : List UInt8 := [0x5a, 0x43, 0x4c, 0x4c, 0x43, 0x4b, 0x0d, 0x0a]

def writeU16String (label : Label) : List UInt8 := bytesLE 2 label.length ++ label

def lockWriteNode (node : LockNode) : List UInt8 :=
  node.root.data ++ (writeU16String node.name ++ (writeU16String node.semver
    ++ (bytesLE 2 node.depth ++ bytesLE 2 node.directDeps)))

def lockWire (nodes : List LockNode) : List UInt8 :=
  lockWireMagic ++ (bytesLE 2 lockVersion ++ (bytesLE 2 nodes.length ++ nodes.flatMap lockWriteNode))

/-- Distinct roots, and the only node of depth zero is last. -/
def lockOrderOk (nodes : List LockNode) : Bool :=
  decide (nodes.map LockNode.root).Nodup
    && (nodes.isEmpty
      || nodes.countP (fun node => node.depth = 0) = 1
        && nodes.getLast?.any fun node => node.depth = 0)

def lockSerialize (nodes : List LockNode) : Except DepsError (List UInt8) :=
  if nodes.length > lockMaxNodes then .error .nodeCount
  else if !lockOrderOk nodes then .error .wireOrder
  else if (lockWire nodes).length > lockMaxWireBytes then .error .wireOversize
  else .ok (lockWire nodes)

-- Parsing

/-- Printable and within its field. -/
def labelOk (label : Label) (cap : Nat) : Bool :=
  label.length ≠ 0 && label.length < cap && label.all fun c => 0x21 ≤ c && c ≤ 0x7e

def readU16 : Reader Nat := fun bytes => do
  let (front, rest) ← takeBytes 2 bytes
  some (natLE front, rest)

/-- A length and as many bytes, none of them zero. -/
def readU16String (most : Nat) : Reader Label := fun bytes => do
  let (length, rest) ← readU16 bytes
  let (label, rest) ← takeBytes length rest
  if length ≤ most ∧ 0 ∉ label then some (label, rest) else none

def lockReadNode : Reader LockNode := fun bytes => do
  let (root, bytes) ← readBlob 32 bytes
  let (name, bytes) ← readU16String releaseNameMax bytes
  let (semver, bytes) ← readU16String releaseSemverMax bytes
  let (depth, bytes) ← readU16 bytes
  let (directDeps, bytes) ← readU16 bytes
  some ({ root, name, semver, depth, directDeps }, bytes)

def lockNodeOk (node : LockNode) : Bool :=
  !rootIsZero node.root && labelOk node.name (releaseNameMax + 1)
    && labelOk node.semver (releaseSemverMax + 1) && node.depth ≤ lockMaxDepth
    && node.directDeps ≤ depsMaxDirect

def lockParseNode (bytes : List UInt8) : Except DepsError (LockNode × List UInt8) :=
  match lockReadNode bytes with
  | none => .error .wireTruncated
  | some (node, bytes) => if lockNodeOk node then .ok (node, bytes) else .error .wireOrder

def lockParseNodes : Nat → List UInt8 → Except DepsError (List LockNode × List UInt8)
  | 0, bytes => .ok ([], bytes)
  | count + 1, bytes => do
    let (node, bytes) ← lockParseNode bytes
    let (nodes, bytes) ← lockParseNodes count bytes
    .ok (node :: nodes, bytes)

def lockParseHeader (bytes : List UInt8) : Except DepsError (Nat × List UInt8) :=
  match takeBytes 8 bytes with
  | none => .error .wireMagic
  | some (magic, bytes) =>
    if magic ≠ lockWireMagic then .error .wireMagic
    else
      match readU16 bytes with
      | none => .error .wireTruncated
      | some (version, bytes) =>
        if version ≠ lockVersion then .error .wireVersion
        else
          match readU16 bytes with
          | none => .error .wireTruncated
          | some (count, bytes) =>
            if count > lockMaxNodes then .error .nodeCount else .ok (count, bytes)

def lockParse (wire : List UInt8) : Except DepsError (List LockNode) :=
  if wire.length > lockMaxWireBytes then .error .wireOversize
  else if wire.length < 12 then .error .wireTruncated
  else do
    let (count, bytes) ← lockParseHeader wire
    let (nodes, bytes) ← lockParseNodes count bytes
    if bytes ≠ [] then .error .wireTrailing
    else if !lockOrderOk nodes then .error .wireOrder
    else .ok nodes

-- What the parser reads back

variable {node : LockNode} {nodes : List LockNode} {label : Label} {cap most : Nat}

theorem readU16_back : ReadsBackOn (· < 2 ^ 16) readU16 (bytesLE 2) := by
  intro value small rest
  rw [readU16, takeBytes_bytesLE]
  simp only [Option.bind_eq_bind, Option.bind_some]
  rw [natLE_bytesLE small]

theorem labelOk_spec (ok : labelOk label cap) : label.length < cap ∧ (0 : UInt8) ∉ label := by
  simp only [labelOk, Bool.and_eq_true, decide_eq_true_eq, List.all_eq_true] at ok
  refine ⟨ok.1.2, fun member => ?_⟩
  have printable := (ok.2 0 member).1
  revert printable
  decide

theorem readU16String_back (small : most < 2 ^ 16)
    : ReadsBackOn (fun label => label.length ≤ most ∧ (0 : UInt8) ∉ label) (readU16String most)
        writeU16String := by
  intro label valid rest
  rw [readU16String, writeU16String, List.append_assoc,
    readU16_back label.length (Nat.lt_of_le_of_lt valid.1 small)]
  simp only [Option.bind_eq_bind, Option.bind_some, takeBytes_append rfl]
  rw [if_pos valid]

theorem lockReadNode_back
    : ReadsBackOn (fun node => lockNodeOk node = true) lockReadNode lockWriteNode := by
  intro node ok rest
  simp only [lockNodeOk, Bool.and_eq_true, decide_eq_true_eq] at ok
  obtain ⟨⟨⟨⟨-, name⟩, semver⟩, depth⟩, direct⟩ := ok
  obtain ⟨nameFits, nameClean⟩ := labelOk_spec name
  obtain ⟨semverFits, semverClean⟩ := labelOk_spec semver
  have nameBack := @readU16String_back releaseNameMax (by decide) node.name
    ⟨Nat.le_of_lt_succ nameFits, nameClean⟩
  have semverBack := @readU16String_back releaseSemverMax (by decide) node.semver
    ⟨Nat.le_of_lt_succ semverFits, semverClean⟩
  have depthBack := readU16_back node.depth (Nat.lt_of_le_of_lt depth (by decide))
  have directBack := readU16_back node.directDeps (Nat.lt_of_le_of_lt direct (by decide))
  rw [lockReadNode, lockWriteNode]
  simp only [List.append_assoc, (readBlob_data 32) _ _, nameBack, semverBack, depthBack, directBack,
    Option.bind_eq_bind, Option.bind_some]

theorem lockParseNodes_back (ok : ∀ node ∈ nodes, lockNodeOk node) (rest : List UInt8)
    : lockParseNodes nodes.length (nodes.flatMap lockWriteNode ++ rest) = .ok (nodes, rest) := by
  induction nodes with
  | nil => rfl
  | cons node nodes ih =>
    rw [List.forall_mem_cons] at ok
    have head := lockReadNode_back node ok.1
    have parsed : ∀ bytes, lockParseNode (lockWriteNode node ++ bytes) = .ok (node, bytes) := by
      intro bytes
      rw [lockParseNode, head bytes]
      exact if_pos ok.1
    rw [List.flatMap_cons, List.append_assoc, List.length_cons, lockParseNodes, parsed]
    change (lockParseNodes nodes.length _ >>= fun result => Except.ok (node :: result.1, result.2)) = _
    rw [ih ok.2]
    rfl

theorem lockWriteNode_length (ok : lockNodeOk node) : (lockWriteNode node).length ≤ 231 := by
  simp only [lockNodeOk, Bool.and_eq_true, decide_eq_true_eq] at ok
  have name := (labelOk_spec ok.1.1.1.2).1
  have semver := (labelOk_spec ok.1.1.2).1
  simp only [releaseNameMax, releaseSemverMax] at name semver
  simp only [lockWriteNode, writeU16String, List.length_append, length_bytesLE, node.root.size_data]
  omega

theorem lockWire_length (ok : ∀ node ∈ nodes, lockNodeOk node) (few : nodes.length ≤ lockMaxNodes)
    : 12 ≤ (lockWire nodes).length ∧ (lockWire nodes).length ≤ lockMaxWireBytes := by
  have each : (nodes.flatMap lockWriteNode).length ≤ nodes.length * 231 := by
    clear few
    induction nodes with
    | nil => exact Nat.le_refl _
    | cons node nodes ih =>
      rw [List.forall_mem_cons] at ok
      have head := lockWriteNode_length ok.1
      have rest := ih ok.2
      rw [List.flatMap_cons, List.length_append, List.length_cons]
      omega
  simp only [lockMaxNodes] at few
  simp only [lockWire, lockWireMagic, lockMaxWireBytes, List.length_append, length_bytesLE,
    List.length_cons, List.length_nil]
  omega

theorem lockParse_lockWire (ok : ∀ node ∈ nodes, lockNodeOk node)
    (few : nodes.length ≤ lockMaxNodes) (order : lockOrderOk nodes)
    : lockParse (lockWire nodes) = .ok nodes := by
  obtain ⟨long, short⟩ := lockWire_length ok few
  have header : lockParseHeader (lockWire nodes)
      = .ok (nodes.length, nodes.flatMap lockWriteNode) := by
    have count : nodes.length < 2 ^ 16 := Nat.lt_of_le_of_lt few (by decide)
    have magic := @takeBytes_append 8 lockWireMagic rfl
    rw [lockParseHeader, lockWire, magic]
    simp only [ne_eq, not_true_eq_false, if_false]
    rw [readU16_back lockVersion (by decide)]
    simp only [not_true_eq_false, if_false]
    rw [readU16_back nodes.length count]
    simp only [gt_iff_lt, Nat.not_lt.mpr few, if_false]
  have body := lockParseNodes_back ok []
  rw [List.append_nil] at body
  rw [lockParse, if_neg (Nat.not_lt.mpr short), if_neg (Nat.not_lt.mpr long), header]
  change (lockParseNodes nodes.length _ >>= fun result => _) = _
  rw [body]
  simp [order, bind, Except.bind]

theorem lockParseNodes_ok {count : Nat} {bytes rest : List UInt8}
    (parsed : lockParseNodes count bytes = .ok (nodes, rest))
    : ∀ node ∈ nodes, lockNodeOk node := by
  induction count generalizing bytes nodes with
  | zero =>
    cases parsed
    intro node member
    cases member
  | succ count ih =>
    rw [lockParseNodes] at parsed
    cases first : lockParseNode bytes with
    | error refusal =>
      rw [first] at parsed
      cases parsed
    | ok head =>
      rw [first] at parsed
      cases others : lockParseNodes count head.2 with
      | error refusal =>
        change (lockParseNodes count head.2 >>= _) = _ at parsed
        rw [others] at parsed
        cases parsed
      | ok tail =>
        change (lockParseNodes count head.2 >>= _) = _ at parsed
        rw [others] at parsed
        cases parsed
        rw [List.forall_mem_cons]
        refine ⟨?_, ih others⟩
        rw [lockParseNode] at first
        split at first
        · cases first
        · split at first
          · rename_i ok
            cases first
            exact ok
          · cases first

theorem lockParse_ok {wire : List UInt8} (parsed : lockParse wire = .ok nodes)
    : (∀ node ∈ nodes, lockNodeOk node) ∧ lockOrderOk nodes := by
  rw [lockParse] at parsed
  split at parsed
  · cases parsed
  · split at parsed
    · cases parsed
    · cases header : lockParseHeader wire with
      | error refusal =>
        rw [header] at parsed
        cases parsed
      | ok head =>
        rw [header] at parsed
        change (lockParseNodes head.1 head.2 >>= _) = _ at parsed
        cases body : lockParseNodes head.1 head.2 with
        | error refusal =>
          rw [body] at parsed
          cases parsed
        | ok result =>
          rw [body] at parsed
          change (if result.2 ≠ [] then _ else if !lockOrderOk result.1 then _ else _) = _
            at parsed
          split at parsed
          · cases parsed
          · split at parsed
            · cases parsed
            · rename_i order
              cases parsed
              exact ⟨lockParseNodes_ok body, by simpa using order⟩

-- The wire is canonical

theorem readU16_only : ReadsOnly readU16 (bytesLE 2) := by
  intro bytes value rest read
  rw [readU16] at read
  obtain ⟨front, tail, taken, read⟩ := bind_read read
  cases read
  have back := bytesLE_natLE front
  rw [takeBytes_length taken] at back
  rw [back]
  exact takeBytes_only taken

theorem readU16String_only : ReadsOnly (readU16String most) writeU16String := by
  intro bytes label rest read
  rw [readU16String] at read
  obtain ⟨length, middle, first, read⟩ := bind_read read
  obtain ⟨front, tail, taken, read⟩ := bind_read read
  dsimp only at read
  split at read
  · cases read
    rw [writeU16String, takeBytes_length taken, List.append_assoc, ← takeBytes_only taken]
    exact readU16_only first
  · cases read

theorem lockReadNode_only : ReadsOnly lockReadNode lockWriteNode := by
  intro bytes node rest read
  rw [lockReadNode] at read
  obtain ⟨root, bytes₁, readRoot, read⟩ := bind_read read
  obtain ⟨name, bytes₂, readName, read⟩ := bind_read read
  obtain ⟨semver, bytes₃, readSemver, read⟩ := bind_read read
  obtain ⟨depth, bytes₄, readDepth, read⟩ := bind_read read
  obtain ⟨direct, bytes₅, readDirect, read⟩ := bind_read read
  cases read
  rw [readBlob_only 32 readRoot, readU16String_only readName, readU16String_only readSemver,
    readU16_only readDepth, readU16_only readDirect, lockWriteNode]
  simp only [List.append_assoc]

theorem lockParseNodes_only {count : Nat} {bytes rest : List UInt8}
    (parsed : lockParseNodes count bytes = .ok (nodes, rest))
    : nodes.length = count ∧ bytes = nodes.flatMap lockWriteNode ++ rest := by
  induction count generalizing bytes nodes with
  | zero =>
    cases parsed
    exact ⟨rfl, rfl⟩
  | succ count ih =>
    obtain ⟨⟨node, tail⟩, first, parsed⟩ := bind_eq_ok.mp parsed
    obtain ⟨⟨others, last⟩, later, parsed⟩ := bind_eq_ok.mp parsed
    cases parsed
    obtain ⟨length, split⟩ := ih later
    rw [lockParseNode] at first
    split at first
    · cases first
    · rename_i read
      split at first
      · cases first
        refine ⟨congrArg (· + 1) length, ?_⟩
        rw [lockReadNode_only read, split, List.flatMap_cons, List.append_assoc]
      · cases first

theorem lockParseHeader_only {bytes rest : List UInt8} {count : Nat}
    (parsed : lockParseHeader bytes = .ok (count, rest))
    : bytes = lockWireMagic ++ (bytesLE 2 lockVersion ++ (bytesLE 2 count ++ rest))
      ∧ count ≤ lockMaxNodes := by
  revert parsed
  fun_cases lockParseHeader bytes
  case case7 magic afterMagic taken rightMagic version afterVersion readVersion rightVersion number
      last readCount few =>
    intro parsed
    cases parsed
    rw [takeBytes_only taken, readU16_only readVersion, readU16_only readCount,
      not_not.mp rightMagic, not_not.mp rightVersion]
    exact ⟨rfl, Nat.not_lt.mp few⟩
  all_goals
    intro parsed
    cases parsed

theorem lockParse_only {wire : List UInt8} (parsed : lockParse wire = .ok nodes)
    : wire = lockWire nodes ∧ nodes.length ≤ lockMaxNodes ∧ wire.length ≤ lockMaxWireBytes := by
  rw [lockParse] at parsed
  split at parsed
  · cases parsed
  · rename_i fits
    split at parsed
    · cases parsed
    · obtain ⟨⟨count, bytes⟩, header, parsed⟩ := bind_eq_ok.mp parsed
      obtain ⟨⟨read, left⟩, body, parsed⟩ := bind_eq_ok.mp parsed
      dsimp only at parsed
      split at parsed
      · cases parsed
      · rename_i finished
        split at parsed
        · cases parsed
        · cases parsed
          obtain ⟨split, few⟩ := lockParseHeader_only header
          obtain ⟨rfl, split'⟩ := lockParseNodes_only body
          rw [not_not.mp finished, List.append_nil] at split'
          rw [split'] at split
          exact ⟨split, few, Nat.not_lt.mp fits⟩

theorem lockSerialize_eq_ok {wire : List UInt8}
    : lockSerialize nodes = .ok wire
      ↔ wire = lockWire nodes ∧ nodes.length ≤ lockMaxNodes ∧ lockOrderOk nodes
        ∧ wire.length ≤ lockMaxWireBytes := by
  constructor
  · fun_cases lockSerialize nodes
    case case4 few order fits =>
      intro written
      cases written
      exact ⟨rfl, Nat.not_lt.mp few, by simpa using order, Nat.not_lt.mp fits⟩
    all_goals
      intro written
      cases written
  · rintro ⟨rfl, few, order, fits⟩
    rw [lockSerialize, if_neg (Nat.not_lt.mpr few), order, if_neg (Nat.not_lt.mpr fits)]
    rfl

/-- The parser takes exactly the wires that the serializer writes of well-formed nodes. -/
theorem lockParse_iff_lockSerialize (wire : List UInt8) (nodes : List LockNode)
    : lockParse wire = .ok nodes
      ↔ lockSerialize nodes = .ok wire ∧ ∀ node ∈ nodes, lockNodeOk node = true := by
  rw [lockSerialize_eq_ok]
  constructor
  · intro parsed
    obtain ⟨same, few, fits⟩ := lockParse_only parsed
    obtain ⟨ok, order⟩ := lockParse_ok parsed
    exact ⟨⟨same, few, order, fits⟩, ok⟩
  · rintro ⟨⟨rfl, few, order, -⟩, ok⟩
    exact lockParse_lockWire ok few order

-- The nodes of a lock in other orders

/-- Every dependency stands before its dependents. -/
def BuildOrder (load : Loader) (nodes : List LockNode) : Prop :=
  ∀ (i j : Nat) (node dependency : LockNode), nodes[i]? = some node →
    nodes[j]? = some dependency → dependency.root ∈ successors load node.root → j < i

/-- The parser takes the root and the labels of a release. -/
def WireOk (root : Root) (release : Release) : Prop :=
  rootIsZero root = false ∧ labelOk release.name (releaseNameMax + 1)
    ∧ labelOk release.semver (releaseSemverMax + 1)

section Lock

variable {load : Loader} {target root : Root} {listed : List LockNode}

section

variable (resolvable : Resolvable load target)
include resolvable

theorem ExactLock.few (lock : ExactLock load target nodes) : nodes.length ≤ lockMaxNodes := by
  have counted := @length_le_encard _ _ lock.once
    {root | Reaches (successors load) target root} fun root member => (lock.lists root).mp member
  rw [List.length_map] at counted
  exact Nat.cast_le.mp (counted.trans resolvable.few)

theorem ExactLock.lockNodeOk_iff (lock : ExactLock load target nodes) (member : node ∈ nodes)
    {release : Release} (loaded : load node.root = some release)
    : lockNodeOk node ↔ WireOk node.root release := by
  obtain ⟨found, loaded', name, semver, direct⟩ := lock.reported node member
  rw [loaded] at loaded'
  cases loaded'
  obtain ⟨path, length, leads⟩ := (lock.depths node member).attained
  have shallow := resolvable.shallow path node.root leads
  have fits := release.deps_fit
  rw [length] at shallow
  rw [← direct] at fits
  simp only [lockNodeOk, WireOk, name, semver, Bool.and_eq_true, Bool.not_eq_true',
    decide_eq_true_eq, shallow, fits, and_true]
  tauto

theorem ExactLock.depth_eq_zero_iff (lock : ExactLock load target nodes) (member : node ∈ nodes)
    : node.depth = 0 ↔ node.root = target := by
  have longest := lock.depths node member
  obtain ⟨path, length, leads⟩ := longest.attained
  constructor
  · intro zero
    rw [zero, List.length_eq_zero_iff] at length
    subst length
    exact (Option.some.inj leads).symm
  · intro same
    rw [same] at leads
    rw [← length, resolvable.acyclic target path Reaches.refl leads]
    rfl

theorem ExactLock.split (lock : ExactLock load target nodes)
    : ∃ front last, nodes = front ++ [last] ∧ last.root = target ∧ last.depth = 0
        ∧ ∀ node ∈ front, node.depth ≠ 0 := by
  rcases List.eq_nil_or_concat' nodes with rfl | ⟨front, last, rfl⟩
  · cases lock.last
  · have lastRoot : last.root = target := by
      have last := lock.last
      rw [List.map_append, List.getLast?_append] at last
      exact Option.some.inj last
    have member : last ∈ front ++ [last] := List.mem_append_right _ List.mem_cons_self
    refine ⟨front, last, rfl, lastRoot, (lock.depth_eq_zero_iff resolvable member).mpr lastRoot, ?_⟩
    intro node held zero
    have same := (lock.depth_eq_zero_iff resolvable (List.mem_append_left _ held)).mp zero
    have once := lock.once
    rw [List.map_append, List.nodup_append] at once
    exact once.2.2 node.root (List.mem_map.mpr ⟨node, held, rfl⟩) last.root List.mem_cons_self
      (same.trans lastRoot.symm)

theorem ExactLock.order_ok (lock : ExactLock load target nodes) {front : List LockNode}
    {last : LockNode} (same : (front ++ [last]).Perm nodes) (zero : last.depth = 0)
    : lockOrderOk (front ++ [last]) := by
  obtain ⟨others, target', rfl, -, zero', deeper⟩ := lock.split resolvable
  have counted : (others ++ [target']).countP (fun node => decide (node.depth = 0)) = 1 := by
    have none : others.countP (fun node => decide (node.depth = 0)) = 0 :=
      List.countP_eq_zero.mpr fun node held => by simpa using deeper node held
    rw [List.countP_append, none, Nat.zero_add, List.countP_singleton]
    simp [zero']
  rw [← same.countP_eq] at counted
  have once := (same.map LockNode.root).nodup_iff.mpr lock.once
  simp only [lockOrderOk, Bool.and_eq_true, Bool.or_eq_true, decide_eq_true_eq]
  refine ⟨once, .inr ⟨counted, ?_⟩⟩
  rw [List.getLast?_append]
  simp [zero]

theorem ExactLock.accepted_last (lock : ExactLock load target nodes) (same : listed.Perm nodes)
    (order : lockOrderOk listed) {i : Nat} (here : listed[i]? = some node)
    (isTarget : node.root = target)
    : i + 1 = listed.length := by
  simp only [lockOrderOk, Bool.and_eq_true, Bool.or_eq_true, decide_eq_true_eq] at order
  obtain ⟨once, shape⟩ := order
  obtain ⟨inside, read⟩ := List.getElem?_eq_some_iff.mp here
  rcases List.eq_nil_or_concat' listed with rfl | ⟨front, last, rfl⟩
  · cases inside
  · have zero : last.depth = 0 := by
      rcases shape with empty | ⟨-, ends⟩
      · simp at empty
      · rw [List.getLast?_append] at ends
        simpa using ends
    have member : last ∈ nodes := same.mem_iff.mp (List.mem_append_right _ List.mem_cons_self)
    have lastRoot := (lock.depth_eq_zero_iff resolvable member).mp zero
    have place : ((front ++ [last]).map LockNode.root)[front.length]? = some target := by
      rw [List.getElem?_map, List.getElem?_append_right (Nat.le_refl _), Nat.sub_self]
      exact congrArg some lastRoot
    have place' : ((front ++ [last]).map LockNode.root)[i]? = some target := by
      rw [List.getElem?_map, here]
      exact congrArg some isTarget
    obtain ⟨within, at'⟩ := List.getElem?_eq_some_iff.mp place
    obtain ⟨within', at''⟩ := List.getElem?_eq_some_iff.mp place'
    have index := (List.Nodup.getElem_inj_iff once).mp (at''.trans at'.symm)
    rw [List.length_append, List.length_singleton, index]

theorem ExactLock.reordered (lock : ExactLock load target nodes)
    (wireOk : ∀ root release, Reaches (successors load) target root → load root = some release →
      WireOk root release)
    (reached : Reaches (successors load) target root) (differs : root ≠ target)
    (needs : successors load root ≠ [])
    : ∃ wire listed, lockParse wire = .ok listed ∧ listed.Perm nodes ∧ ¬ BuildOrder load listed := by
  have few := lock.few resolvable
  have ok : ∀ node ∈ nodes, lockNodeOk node := by
    intro node member
    obtain ⟨release, loaded, -⟩ := lock.reported node member
    have reaches := (lock.lists node.root).mp (List.mem_map.mpr ⟨node, member, rfl⟩)
    exact (lock.lockNodeOk_iff resolvable member loaded).mpr (wireOk _ _ reaches loaded)
  obtain ⟨front, last, whole, lastRoot, zero, -⟩ := lock.split resolvable
  obtain ⟨dependent, held, rfl⟩ := List.mem_map.mp ((lock.lists root).mpr reached)
  have inFront : dependent ∈ front := by
    rw [whole, List.mem_append, List.mem_singleton] at held
    rcases held with found | rfl
    · exact found
    · exact absurd lastRoot differs
  have same : (dependent :: front.erase dependent ++ [last]).Perm nodes := by
    rw [whole]
    exact (List.perm_cons_erase inFront).symm.append_right _
  refine ⟨lockWire (dependent :: front.erase dependent ++ [last]), _,
    lockParse_lockWire (fun node member => ok node (same.mem_iff.mp member))
      (by rwa [same.length_eq]) (lock.order_ok resolvable same zero), same, ?_⟩
  intro order
  obtain ⟨next, child⟩ := List.exists_mem_of_ne_nil _ needs
  have nextReached := reached.trans (reaches_of_mem child)
  obtain ⟨dependency, member, rfl⟩ := List.mem_map.mp ((lock.lists next).mpr nextReached)
  obtain ⟨j, inside, here⟩ := List.getElem_of_mem (same.mem_iff.mpr member)
  have before := order 0 j dependent dependency rfl
    (by rw [List.getElem?_eq_getElem inside, here]) child
  exact absurd before (Nat.not_lt_zero j)

end

end Lock

-- Which locks can be reordered

/-- No accepted wire with the nodes of the lock lists a dependent before what it needs. -/
def ReorderRefused (load : Loader) (target : Root) : Prop :=
  ∀ nodes, lockResolve load target = some (.ok nodes) → ∀ wire listed,
    lockParse wire = .ok listed → listed.Perm nodes → BuildOrder load listed

/-- Reordering is refused only when there is nothing to reorder, since no package but the target
needs another, or when no wire of the lock is accepted at all. -/
theorem reorderRefused_iff {load : Loader} {target : Root}
    (resolved : lockResolve load target = some (.ok nodes))
    : ReorderRefused load target
        ↔ (∀ root, Reaches (successors load) target root → root ≠ target →
              successors load root = [])
          ∨ ∃ root release, Reaches (successors load) target root ∧ load root = some release
              ∧ ¬ WireOk root release := by
  rcases lockResolve_cases load target with
    ⟨nodes', resolved', -, resolvable, -, lock⟩ | ⟨⟨refusal, refused⟩, -⟩
  · rw [resolved, Option.some.injEq, Except.ok.injEq] at resolved'
    subst resolved'
    constructor
    · intro claim
      by_contra condition
      rw [not_or] at condition
      obtain ⟨busy, fine⟩ := condition
      simp only [not_forall] at busy
      obtain ⟨root, reached, differs, needs⟩ := busy
      have wireOk : ∀ root release, Reaches (successors load) target root →
          load root = some release → WireOk root release := by
        intro other release reaches loaded
        by_contra bad
        exact fine ⟨other, release, reaches, loaded, bad⟩
      obtain ⟨wire, listed, parsed, same, wrong⟩ :=
        lock.reordered resolvable wireOk reached differs needs
      exact wrong (claim nodes resolved wire listed parsed same)
    · intro condition other again wire listed parsed same i j node dependency here there child
      rw [resolved, Option.some.injEq, Except.ok.injEq] at again
      subst again
      obtain ⟨ok, order⟩ := lockParse_ok parsed
      have held : node ∈ nodes := same.mem_iff.mp (List.mem_of_getElem? here)
      have reached := (lock.lists node.root).mp (List.mem_map.mpr ⟨node, held, rfl⟩)
      rcases condition with idle | ⟨root, release, reaches, loaded, bad⟩
      · have isTarget : node.root = target := by
          by_contra differs
          rw [idle node.root reached differs] at child
          cases child
        have last := lock.accepted_last resolvable same order here isTarget
        obtain ⟨inside, -⟩ := List.getElem?_eq_some_iff.mp there
        have apart : j ≠ i := by
          rintro rfl
          rw [here, Option.some.injEq] at there
          subst there
          obtain ⟨position, within, back⟩ := List.getElem_of_mem child
          have around : follow (successors load) node.root [position] = some node.root := by
            rw [follow, List.getElem?_eq_getElem within, back]
            rfl
          exact List.cons_ne_nil _ _ (resolvable.acyclic node.root _ reached around)
        omega
      · obtain ⟨found, member, rfl⟩ := List.mem_map.mp ((lock.lists root).mpr reaches)
        have good := ok found (same.mem_iff.mpr member)
        exact absurd ((lock.lockNodeOk_iff resolvable member loaded).mp good) bad
  · rw [resolved] at refused
    cases refused

theorem reorderRefused_iff_sample
    : (∃ nodes, lockResolve sampleLoad (sampleRoot 1) = some (.ok nodes))
        ∧ (ReorderRefused sampleLoad (sampleRoot 1)
          ↔ (∀ root, Reaches (successors sampleLoad) (sampleRoot 1) root → root ≠ sampleRoot 1 →
                successors sampleLoad root = [])
            ∨ ∃ root release, Reaches (successors sampleLoad) (sampleRoot 1) root
                ∧ sampleLoad root = some release ∧ ¬ WireOk root release) := by
  obtain ⟨nodes, resolved⟩ := sampleLoad_resolves
  exact ⟨⟨nodes, resolved⟩, reorderRefused_iff resolved⟩

theorem sampleLoad_wireOk {root : Root} {release : Release}
    (loaded : sampleLoad root = some release)
    : WireOk root release := by
  rw [sampleLoad] at loaded
  split at loaded
  · rename_i same
    cases loaded
    subst same
    exact ⟨by decide, by decide, by decide⟩
  · split at loaded
    · rename_i same
      cases loaded
      subst same
      exact ⟨by decide, by decide, by decide⟩
    · split at loaded
      · rename_i same
        cases loaded
        subst same
        exact ⟨by decide, by decide, by decide⟩
      · cases loaded

/-- The package that needs another is accepted in front of it. -/
theorem reordering_accepted : ¬ ReorderRefused sampleLoad (sampleRoot 1) := by
  intro claim
  rcases lockResolve_cases sampleLoad (sampleRoot 1) with
    ⟨nodes, resolved, -, resolvable, -, lock⟩ | ⟨⟨refusal, refused⟩, -⟩
  · have reached : Reaches (successors sampleLoad) (sampleRoot 1) (sampleRoot 3) :=
      ⟨[1], by decide +kernel⟩
    obtain ⟨wire, listed, parsed, same, wrong⟩ := lock.reordered resolvable
      (fun root release _ loaded => sampleLoad_wireOk loaded) reached (by decide +kernel)
      (by decide +kernel)
    exact wrong (claim nodes resolved wire listed parsed same)
  · obtain ⟨nodes, resolved⟩ := sampleLoad_resolves
    rw [refused] at resolved
    cases resolved

end Z23.Vcs
