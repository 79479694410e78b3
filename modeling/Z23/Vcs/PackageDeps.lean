import Z23.Lib.Codec
import Z23.Lib.OrderedGraph

/-!
The resolution of a package's dependencies into a lock: an iterative depth-first walk over the
declarations a loader answers with, and a reverse pass that settles the depths. The loader
answers every root the same way each time, and the allocations of the resolver succeed.
-/

namespace Z23.Vcs

open Z23.Lib.Codec
open Z23.Lib.OrderedGraph

-- Declarations and releases

def releaseNameMax : Nat := 127

def releaseSemverMax : Nat := 64

def depsMaxDirect : Nat := 32

def lockMaxNodes : Nat := 64

def lockMaxDepth : Nat := 8

abbrev Root := Blob 32

/-- A C string without its terminator; empty when a declaration leaves it out. -/
abbrev Label := List UInt8

structure Dep where
  root : Root
  name : Label
  semver : Label
deriving DecidableEq, Repr

/-- What the loader reports of a root, within the buffers it is given. -/
structure Release where
  name : Label
  semver : Label
  deps : List Dep
  name_fits : name.length ≤ releaseNameMax
  semver_fits : semver.length ≤ releaseSemverMax
  deps_fit : deps.length ≤ depsMaxDirect
deriving DecidableEq, Repr

/-- `none` when the root cannot be resolved. -/
abbrev Loader := Root → Option Release

inductive DepsError where
  | depRoot
  | self
  | cycle
  | depth
  | nodeCount
  | unresolved
  | labelMismatch
  | wireMagic
  | wireVersion
  | wireTruncated
  | wireTrailing
  | wireOversize
  | wireOrder
deriving DecidableEq, Repr

/-- The error of a resolution, and the detail it is reported with. -/
structure Refusal where
  error : DepsError
  detail : String
deriving DecidableEq, Repr

def rootIsZero (root : Root) : Bool := root.data.all (· == 0)

def hexify (root : Root) : String :=
  String.ofList (root.data.flatMap fun byte =>
    [Nat.digitChar (byte.toNat / 16), Nat.digitChar (byte.toNat % 16)])

def labelText (label : Label) : String := String.ofList (label.map fun byte => Char.ofNat byte.toNat)

-- The walk

structure LockNode where
  root : Root
  name : Label
  semver : Label
  depth : Nat
  directDeps : Nat
deriving DecidableEq, Repr

structure Frame where
  root : Root
  release : Release
  /-- The next child to descend into. -/
  next : Nat
  depth : Nat
deriving Repr

/-- The text of the first label of the edge that the release does not bear out. -/
def labelClash (root : Root) (edge : Dep) (release : Release) : Option String :=
  if edge.name ≠ [] ∧ edge.name ≠ release.name then
    some ("root " ++ hexify root ++ " declared name '" ++ labelText edge.name
      ++ "', release says '" ++ labelText release.name ++ "'")
  else if edge.semver ≠ [] ∧ edge.semver ≠ release.semver then
    some ("root " ++ hexify root ++ " declared semver '" ++ labelText edge.semver
      ++ "', release says '" ++ labelText release.semver ++ "'")
  else none

/-- Load a root, check the labels of the edge it was found by, and refuse a package that depends
on itself. -/
def depsPush (load : Loader) (root : Root) (depth : Nat) (edge : Option Dep)
    : Except Refusal Frame :=
  match load root with
  | none => .error ⟨.unresolved, "root " ++ hexify root⟩
  | some release =>
    match edge.bind fun edge => labelClash root edge release with
    | some detail => .error ⟨.labelMismatch, detail⟩
    | none =>
      if release.deps.any fun dep => dep.root = root then
        .error ⟨.self, "root " ++ hexify root ++ " depends on itself"⟩
      else .ok { root, release, next := 0, depth }

/-- The stack with its top first, and the nodes given out so far beside their edges. -/
structure Walk where
  stack : List Frame
  emitted : List (LockNode × List Dep)

namespace Walk

def lockFind (nodes : List LockNode) (root : Root) : Option Nat :=
  nodes.findIdx? fun node => node.root = root

def isEmitted (w : Walk) (root : Root) : Bool := (lockFind (w.emitted.map Prod.fst) root).isSome

def onStack (stack : List Frame) (root : Root) : Bool := stack.any fun frame => frame.root = root

def depsEmit (emitted : List (LockNode × List Dep)) (frame : Frame)
    : Except Refusal (List (LockNode × List Dep)) :=
  if emitted.length ≥ lockMaxNodes then .error ⟨.nodeCount, "closure > 64 nodes"⟩
  else
    .ok (emitted ++
      [({ root := frame.root
          name := frame.release.name
          semver := frame.release.semver
          depth := frame.depth
          directDeps := frame.release.deps.length }, frame.release.deps)])

/-- One turn of the walk's loop, with `top` on the stack. -/
def turn (load : Loader) (top : Frame) (below : List Frame) (emitted : List (LockNode × List Dep))
    : Except Refusal Walk :=
  match top.release.deps[top.next]? with
  | none => do
    let emitted ← depsEmit emitted top
    .ok ⟨below, emitted⟩
  | some edge =>
    let stack := { top with next := top.next + 1 } :: below
    if isEmitted ⟨stack, emitted⟩ edge.root then .ok ⟨stack, emitted⟩
    else if onStack stack edge.root then
      .error ⟨.cycle, "root " ++ hexify edge.root ++ " is already being resolved"⟩
    else if stack.length > lockMaxDepth then .error ⟨.depth, "deeper than 8 levels"⟩
    else do
      let frame ← depsPush load edge.root (top.depth + 1) (some edge)
      .ok ⟨frame :: stack, emitted⟩

/-- The loop; the outer `none` is a walk with more turns than the fuel. -/
def loop (load : Loader) : Nat → Walk → Option (Except Refusal (List (LockNode × List Dep)))
  | _, ⟨[], emitted⟩ => some (.ok emitted)
  | 0, ⟨_ :: _, _⟩ => none
  | fuel + 1, ⟨top :: below, emitted⟩ =>
    match turn load top below emitted with
    | .error refusal => some (.error refusal)
    | .ok w => loop load fuel w

end Walk

-- Depths

/-- Raise the depth of one dependency of the node at `i`. -/
def relaxDepth (i depth : Nat) (nodes : List LockNode) (dep : Dep)
    : Except Refusal (List LockNode) :=
  match Walk.lockFind nodes dep.root with
  | none =>
    .error ⟨.unresolved, "root " ++ hexify dep.root ++ " is an edge with no node in the closure"⟩
  | some j =>
    if j ≥ i then
      .error ⟨.wireOrder,
        "root " ++ hexify dep.root ++ " is not ordered before its dependent in the closure"⟩
    else
      .ok (nodes.modify j fun node =>
        if node.depth < depth then { node with depth } else node)

/-- The turn of the reverse pass for the node at `i`. -/
def settleNode (graph : List (List Dep)) (i : Nat) (nodes : List LockNode)
    : Except Refusal (List LockNode) :=
  match nodes[i]?, graph[i]? with
  | some node, some deps =>
    if node.depth ≥ lockMaxDepth ∧ deps.length > 0 then
      .error ⟨.depth,
        "root " ++ hexify node.root ++ " sits " ++ toString node.depth
          ++ " levels under the target, past 8"⟩
    else deps.foldlM (relaxDepth i (node.depth + 1)) nodes
  | _, _ => .ok nodes

/-- The reverse pass over the nodes below `i`. -/
def settleBelow (graph : List (List Dep)) : Nat → List LockNode → Except Refusal (List LockNode)
  | 0, nodes => .ok nodes
  | i + 1, nodes => do
    let nodes ← settleNode graph i nodes
    settleBelow graph i nodes

def normalizeDepths (emitted : List (LockNode × List Dep)) : Except Refusal (List LockNode) :=
  settleBelow (emitted.map Prod.snd) emitted.length
    (emitted.map fun row => { row.1 with depth := 0 })

/-- More turns than any walk takes: each of the frames that can be pushed before the stack or the
lock is full has at most 32 edges and one turn to be given out. -/
def walkBudget : Nat := (lockMaxNodes + lockMaxDepth + 1) * (depsMaxDirect + 2)

/-- The nodes of the lock, or why there is none. -/
def lockResolve (load : Loader) (target : Root) : Option (Except Refusal (List LockNode)) :=
  if rootIsZero target then some (.error ⟨.depRoot, "all-zero target root"⟩)
  else
    match depsPush load target 0 none with
    | .error refusal => some (.error refusal)
    | .ok frame => (Walk.loop load walkBudget ⟨[frame], []⟩).map fun walked => walked.bind normalizeDepths

end Z23.Vcs
