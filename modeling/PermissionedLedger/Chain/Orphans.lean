import PermissionedLedger.Block.Basic

/-!
# Orphans

Blocks whose parent is not known yet wait in a pool. It holds a limited number of
them, each until it expires. Adding a block first drops those that have expired,
and then, while the pool is full, the one that expires first; of several, the one
that was added first.

The pool is a list in the order in which blocks were added. A block that is added
again keeps its position, but is held with its new content and expiry.
-/

namespace PermissionedLedger

open Time (Instant)

/-- A block that waits for its parent. -/
structure Orphan where
  /-- digest of the block -/
  hash : Digest
  /-- the block -/
  block : Block
  /-- when it is no longer wanted -/
  expiry : Instant
  /-- number of blocks that were added before it -/
  turn : Nat

namespace Orphan

/-- The digest of the block it waits for. -/
def parent (o : Orphan) : Digest := o.block.header.previous

/-- Whether it is no longer wanted. -/
def isExpired (o : Orphan) (now : Instant) : Bool := o.expiry ≤ now

/-- Whether it gives way before another: it expires earlier, or at the same time and was added
earlier. -/
def isOlder (a b : Orphan) : Bool :=
  a.expiry < b.expiry || (a.expiry = b.expiry && a.turn < b.turn)

end Orphan

/-- The blocks that wait for their parents. -/
structure OrphanPool where
  /-- what is held, in the order of adding -/
  held : List Orphan := []
  /-- the number of blocks that may be held -/
  capacity : Nat
  /-- how long a block is wanted, in seconds -/
  lifetime : Int
  /-- number of blocks that were ever added -/
  turns : Nat := 0
  /-- there is room for a block -/
  capacity_pos : 0 < capacity

namespace OrphanPool

/-- An empty pool. There is always room for one block. -/
def ofLimits (capacity : Nat) (lifetime : Int) : OrphanPool where
  capacity := max capacity 1
  lifetime
  capacity_pos := by omega

/-- The number of blocks held. -/
def size (p : OrphanPool) : Nat := p.held.length

/-- The orphan with a digest. -/
def find? (p : OrphanPool) (hash : Digest) : Option Orphan := p.held.find? (·.hash = hash)

/-- Whether a block is held. -/
def contains (p : OrphanPool) (hash : Digest) : Bool := (p.find? hash).isSome

/-- All orphans but the one with a digest. -/
def without (hash : Digest) (held : List Orphan) : List Orphan := held.filter (·.hash ≠ hash)

theorem length_without_lt {held : List Orphan} {o : Orphan} {hash : Digest} (mem : o ∈ held)
    (eq : o.hash = hash) : (without hash held).length < held.length :=
  List.length_filter_lt_length_iff_exists.2 ⟨o, mem, by simp [eq]⟩

/-- The pool without one block. -/
def remove (p : OrphanPool) (hash : Digest) : OrphanPool :=
  { p with held := without hash p.held }

/-- The pool without the blocks that have expired. -/
def dropExpired (p : OrphanPool) (now : Instant) : OrphanPool :=
  { p with held := p.held.filter (!·.isExpired now) }

/-- The orphan that gives way first. -/
def oldest? (p : OrphanPool) : Option Orphan :=
  match p.held with
  | [] => none
  | o :: os => some (os.foldl (fun oldest o => if o.isOlder oldest then o else oldest) o)

/-- The pool without its oldest block. -/
def dropOldest (p : OrphanPool) : OrphanPool :=
  match p.oldest? with
  | some o => p.remove o.hash
  | none => p

/-- Drops the oldest blocks until there is room for another. -/
def makeRoom (p : OrphanPool) : OrphanPool :=
  (List.range (p.size + 1 - p.capacity)).foldl (fun p _ => p.dropOldest) p

/-- Adds an orphan at the end, or in place of the one with the same digest. -/
def place (o : Orphan) : List Orphan → List Orphan
  | [] => [o]
  | held :: rest => if held.hash = o.hash then o :: rest else held :: place o rest

/-- Adds a block. -/
def add (p : OrphanPool) (block : Block) (now : Instant) : OrphanPool :=
  let p := (p.dropExpired now).makeRoom
  let o : Orphan :=
    { hash := block.hash
      block
      expiry := now.addSeconds p.lifetime
      turn := p.turns }
  { p with held := place o p.held, turns := p.turns + 1 }

/-- Takes out all blocks that wait for a parent. Those that have not expired are the result. -/
def takeChildren (p : OrphanPool) (parent : Digest) (now : Instant) : List Block × OrphanPool :=
  let (children, others) := p.held.partition (·.parent = parent)
  ((children.filter (!·.isExpired now)).map (·.block), { p with held := others })

/-- The digest that is reached from `hash` by parent links of the given orphans, each followed at
most once. -/
def rootAmong (held : List Orphan) (hash : Digest) : Digest :=
  match _h : held.find? (·.hash = hash) with
  | none => hash
  | some o =>
    let rest := without hash held
    if rest.any (·.hash = o.parent) then rootAmong rest o.parent else hash
termination_by held.length
decreasing_by
  exact length_without_lt (List.mem_of_find?_eq_some _h) (by simpa using List.find?_some _h)

/-- The earliest block of those held that lead to a block, or that block itself: the one whose
parent is missing. -/
def rootOf (p : OrphanPool) (hash : Digest) : Digest := rootAmong p.held hash

end OrphanPool

end PermissionedLedger
