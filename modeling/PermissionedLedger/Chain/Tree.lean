import PermissionedLedger.Network.Params
import PermissionedLedger.Store.Tables

/-!
# The block tree

The headers of all known blocks. A node refers to its parent by position, and
every parent stands before its children, so a walk towards the root
(`BlockTree.lineage`) ends.

One path of the tree is the main chain, an array of positions in which every node
stands at its own height. It is moved by `setTip`, and `ancestor?` takes a short
cut through it.

What a block needs from its ancestors is computed here as well: the median of
their times, and the target it has to carry.
-/

namespace PermissionedLedger

open Time (Instant)

/-- A known block. -/
structure TreeNode where
  /-- digest of the block -/
  hash : Digest
  /-- position of the parent; none for a root -/
  parent : Option Nat
  /-- number of ancestors -/
  height : Nat
  /-- header of the block -/
  header : Header
  /-- total work of the branch that ends here -/
  work : Nat
  /-- how far the block has been validated -/
  status : BlockStatus
  /-- keys in force after the block -/
  keys : KeySets

namespace TreeNode

/-- The node as it is stored. -/
def toRecord (n : TreeNode) : NodeRecord := ⟨n.hash, n.header, n.height, n.status⟩

/-- Whether the branch that ends here is preferred to another: it has more work, or equal work and
a smaller digest. -/
def isBetterThan (a b : TreeNode) : Bool :=
  b.work < a.work || (a.work = b.work && a.hash.value < b.hash.value)

end TreeNode

/-- Where there are no nodes, there are no parents. -/
theorem TreeNode.parent_lt_of_empty (i : Nat) (h : i < (#[] : Array TreeNode).size) (p : Nat)
    (_ : (#[] : Array TreeNode)[i].parent = some p) : p < i :=
  absurd h (Nat.not_lt_zero i)

/-- All known blocks, and the main chain. -/
structure BlockTree where
  /-- nodes in the order they became known -/
  nodes : Array TreeNode := #[]
  /-- positions by digest -/
  byHash : Std.ExtTreeMap Digest Nat := ∅
  /-- positions of the nodes of the main chain, by height -/
  main : Array Nat := #[]
  /-- parents come first -/
  parent_lt : ∀ (i : Nat) (h : i < nodes.size) (p : Nat), nodes[i].parent = some p → p < i := by
    exact TreeNode.parent_lt_of_empty

namespace BlockTree

instance : Inhabited BlockTree := ⟨{}⟩

/-- The number of nodes. -/
def size (t : BlockTree) : Nat := t.nodes.size

/-- The node at a position. -/
def node? (t : BlockTree) (id : Nat) : Option TreeNode := t.nodes[id]?

/-- The position of a block. -/
def find? (t : BlockTree) (hash : Digest) : Option Nat := t.byHash[hash]?

/-- Whether a block is known. -/
def contains (t : BlockTree) (hash : Digest) : Bool := (t.find? hash).isSome

theorem contains_eq_false_iff {t : BlockTree} {hash : Digest} :
    t.contains hash = false ↔ t.find? hash = none := by
  rw [contains, Option.isSome_eq_false_iff, Option.isNone_iff_eq_none]

/-- The node of a block. -/
def findNode? (t : BlockTree) (hash : Digest) : Option TreeNode := (t.find? hash).bind t.node?

/-- The height of the node at a position. -/
def height (t : BlockTree) (id : Nat) : Nat := ((t.node? id).map (·.height)).getD 0

/-- The node of a header under a parent. -/
def child (t : BlockTree) (header : Header) (parent : Option Nat) (status : BlockStatus)
    (keys : KeySets) : TreeNode :=
  let above := parent.bind t.node?
  { hash := header.hash
    parent := parent.filter (· < t.size)
    height := (above.map (·.height + 1)).getD 0
    header
    work := Work.total ((above.map (·.work)).getD 0) (Work.work header.bits)
    status
    keys }

/-- Adds a node under a parent, at the position `t.size`. -/
def insert (t : BlockTree) (header : Header) (parent : Option Nat) (status : BlockStatus)
    (keys : KeySets) : BlockTree where
  nodes := t.nodes.push (t.child header parent status keys)
  byHash := t.byHash.insert header.hash t.size
  main := t.main
  parent_lt := by
    intro i h p hp
    rw [Array.getElem_push] at hp
    split at hp
    · exact t.parent_lt i _ p hp
    · obtain ⟨_, hlt⟩ := Option.filter_eq_some_iff.1 hp
      have hsize : p < t.nodes.size := of_decide_eq_true hlt
      rw [Array.size_push] at h
      omega

/-- Removes the node at a position if it was the last to be added and is not on the main chain. -/
def removeNewest (t : BlockTree) (id : Nat) : BlockTree :=
  if id + 1 = t.size ∧ id ∉ t.main then
    { nodes := t.nodes.pop
      byHash := match t.node? id with
        | some n => t.byHash.erase n.hash
        | none => t.byHash
      main := t.main
      parent_lt := by
        intro i h p hp
        rw [Array.getElem_pop] at hp
        exact t.parent_lt i _ p hp }
  else t

/-- Changes the status of a node. -/
def setStatus (t : BlockTree) (id : Nat) (status : BlockStatus) : BlockTree :=
  { t with
    nodes := t.nodes.modify id fun n => { n with status }
    parent_lt := by
      intro i h p hp
      rw [Array.size_modify] at h
      rw [Array.getElem_modify] at hp
      refine t.parent_lt i h p ?_
      split at hp <;> exact hp }

/-- Changes the status of several nodes. -/
def setStatuses (t : BlockTree) (ids : List Nat) (status : BlockStatus) : BlockTree :=
  ids.foldl (fun t id => t.setStatus id status) t

/-! ## Walks towards the root -/

/-- A node and its ancestors, up to the root. -/
def lineage (t : BlockTree) (id : Nat) : List Nat :=
  if h : id < t.nodes.size then
    id :: match hp : t.nodes[id].parent with
      | some p => t.lineage p
      | none => []
  else []
termination_by id
decreasing_by exact t.parent_lt id h p hp

/-- A node and its ancestors as nodes. -/
def lineageNodes (t : BlockTree) (id : Nat) : List TreeNode := (t.lineage id).filterMap t.node?

/-- The nodes after an ancestor up to a node, in ascending order of height. -/
def pathFrom (t : BlockTree) (ancestor id : Nat) : List Nat :=
  ((t.lineage id).takeWhile (· ≠ ancestor)).reverse

/-- A node and all that descend from it, in the order they became known. -/
def descendants (t : BlockTree) (id : Nat) : List Nat :=
  let later := List.range' (id + 1) (t.size - (id + 1))
  (later.foldl (fun found child =>
    match (t.node? child).bind (·.parent) with
    | some parent => if parent ∈ found then child :: found else found
    | none => found) [id]).reverse

/-! ## The main chain -/

/-- The last node of the main chain. -/
def tip? (t : BlockTree) : Option Nat := t.main.back?

/-- The node of the main chain at a height. -/
def mainAt? (t : BlockTree) (height : Nat) : Option Nat := t.main[height]?

/-- Whether a node is on the main chain. -/
def isInMain (t : BlockTree) (id : Nat) : Bool :=
  match t.node? id with
  | some n => t.mainAt? n.height = some id
  | none => false

/-- Makes the main chain end at a node. What it has in common with the branch of that node
stays. -/
def setTip (t : BlockTree) (id : Nat) : BlockTree :=
  let line := t.lineage id
  let fork := (line.find? t.isInMain).bind t.node?
  let kept := t.main.take ((fork.map (·.height + 1)).getD 0)
  { t with main := kept ++ (line.takeWhile (!t.isInMain ·)).reverse.toArray }

/-- The ancestor of a node at a height, which may be the node itself. -/
def ancestor? (t : BlockTree) (id height : Nat) : Option Nat := do
  let n ← t.node? id
  if n.height < height then none
  else if t.isInMain id then t.mainAt? height
  else (t.lineage id).find? fun a => (t.node? a).any (·.height ≤ height)

/-- The last common ancestor of two nodes. -/
def findFork? (t : BlockTree) (a b : Nat) : Option Nat := do
  let na ← t.node? a
  let nb ← t.node? b
  let height := min na.height nb.height
  let a ← t.ancestor? a height
  let b ← t.ancestor? b height
  let same ← ((t.lineage a).zip (t.lineage b)).find? fun (a, b) => a = b
  return same.1

/-! ## What ancestors determine -/

/-- The middle one of several instants in order, the later of two. -/
def median (times : List Instant) : Instant :=
  let sorted := times.mergeSort fun a b => a ≤ b
  (sorted[sorted.length / 2]?).getD .epoch

/-- The median of the times of a node and its closest ancestors, `count` nodes in all or as many as
there are, but at least one. -/
def medianTime (t : BlockTree) (id count : Nat) : Instant :=
  median (((t.lineageNodes id).take (max count 1)).map (·.header.time))

/-- The compact target that a block under a parent has to carry: the easiest one without a parent,
that of the parent within an interval, and a new one at the start of an interval. -/
def nextBits (t : BlockTree) (schedule : Work.Schedule) (id : Nat) : UInt32 :=
  match t.node? id with
  | none => schedule.limitBits
  | some parent =>
    let height := parent.height + 1
    if schedule.isRetargetHeight height then
      let first := ((t.ancestor? id (height - schedule.interval)).bind t.node?).getD parent
      schedule.retarget parent.header.bits (parent.header.time.secondsSince first.header.time)
    else parent.header.bits

end BlockTree

end PermissionedLedger
