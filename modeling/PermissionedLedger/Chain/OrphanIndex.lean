import PermissionedLedger.Chain.Orphans

/-!
# Orphans in two tables

`OrphanIndex` holds the blocks of a pool in a table by digest, and beside it the digests of
the orphans of each parent, in the order of adding. No list of digests is empty. A block that
is added or leaves has to be entered in both tables or taken out of both.

A call (`OrphanCall`) is made in the same way on an index and on the list that an
`OrphanPool` is. The answer is what the call hands out.
-/

namespace PermissionedLedger

open Time (Instant)

/-- A search that keeps what it has found or takes what it comes to ends with one of those. -/
theorem foldl_mem {α : Type} {f : α → α → α} (hf : ∀ a b, f a b = a ∨ f a b = b) (a : α)
    (as : List α) : as.foldl f a ∈ a :: as := by
  induction as generalizing a with
  | nil => exact List.mem_singleton_self a
  | cons b as ih =>
    rw [List.foldl_cons]
    rcases hf a b with hkeep | htake
    · rw [hkeep]
      exact (List.cons_subset_cons a (List.subset_cons_self b as)) (ih a)
    · rw [htake]
      exact List.mem_cons_of_mem a (ih b)

/-- The blocks that wait for their parents, by digest and by parent. -/
structure OrphanIndex where
  /-- what is held, by digest -/
  orphans : Std.ExtTreeMap Digest Orphan := ∅
  /-- digests of what is held, by parent -/
  byParent : Std.ExtTreeMap Digest (List Digest) := ∅
  /-- the number of blocks that may be held -/
  capacity : Nat
  /-- how long a block is wanted, in seconds -/
  lifetime : Int
  /-- number of blocks that were ever added -/
  turns : Nat := 0

namespace OrphanIndex

/-- An empty index. There is always room for one block. -/
def ofLimits (capacity : Nat) (lifetime : Int) : OrphanIndex where
  capacity := max capacity 1
  lifetime

/-- The number of blocks held. -/
def size (x : OrphanIndex) : Nat := x.orphans.size

/-- Whether a block is held. -/
def contains (x : OrphanIndex) (hash : Digest) : Bool := x.orphans.contains hash

/-- The digests by parent without one of them. -/
def dropSibling (byParent : Std.ExtTreeMap Digest (List Digest)) (parent hash : Digest) :
    Std.ExtTreeMap Digest (List Digest) :=
  match byParent[parent]? with
  | none => byParent
  | some siblings =>
    let others := siblings.filter (· ≠ hash)
    if others = [] then byParent.erase parent else byParent.insert parent others

/-- Takes out one block, which is the result if it was held. -/
def remove (x : OrphanIndex) (hash : Digest) : Option Block × OrphanIndex :=
  match x.orphans[hash]? with
  | none => (none, x)
  | some o =>
    (some o.block,
      { x with
        orphans := x.orphans.erase hash
        byParent := dropSibling x.byParent o.parent hash })

/-- Takes out several blocks. -/
def removeAll (x : OrphanIndex) (hashes : List Digest) : OrphanIndex :=
  hashes.foldl (fun x hash => (x.remove hash).2) x

/-- The index without the blocks that have expired. -/
def dropExpired (x : OrphanIndex) (now : Instant) : OrphanIndex :=
  x.removeAll ((x.orphans.toList.filter fun e => e.2.isExpired now).map (·.1))

/-- The entry of the orphan that gives way first. -/
def oldestOf (e : Digest × Orphan) (es : List (Digest × Orphan)) : Digest × Orphan :=
  es.foldl (fun oldest e => if e.2.isOlder oldest.2 then e else oldest) e

/-- The digest of the orphan that gives way first. -/
def oldest? (x : OrphanIndex) : Option Digest :=
  match x.orphans.toList with
  | [] => none
  | e :: es => some (oldestOf e es).1

theorem mem_oldestOf (e : Digest × Orphan) (es : List (Digest × Orphan)) :
    oldestOf e es ∈ e :: es :=
  foldl_mem (fun a b => by split <;> simp) e es

theorem mem_of_oldest? {x : OrphanIndex} {hash : Digest} (h : x.oldest? = some hash) :
    hash ∈ x.orphans := by
  rw [oldest?] at h
  split at h
  · cases h
  · next e es heq =>
    obtain rfl := Option.some.inj h
    have hin : oldestOf e es ∈ x.orphans.toList := by
      rw [heq]
      exact mem_oldestOf e es
    have hsome : x.orphans[(oldestOf e es).1]? = some (oldestOf e es).2 :=
      Std.ExtTreeMap.mem_toList_iff_getElem?_eq_some.1 hin
    rw [Std.ExtTreeMap.mem_iff_isSome_getElem?, hsome]
    rfl

theorem size_remove_lt {x : OrphanIndex} {hash : Digest} (h : hash ∈ x.orphans) :
    (x.remove hash).2.orphans.size < x.orphans.size := by
  rw [remove]
  split
  · next hnone =>
    rw [Std.ExtTreeMap.mem_iff_isSome_getElem?, hnone] at h
    cases h
  · rw [Std.ExtTreeMap.size_erase, if_pos (Std.ExtTreeMap.mem_iff_contains.1 h)]
    have hpos : x.orphans.size ≠ 0 := by
      intro hzero
      rw [Std.ExtTreeMap.eq_empty_iff_size_eq_zero.2 hzero] at h
      exact Std.ExtTreeMap.not_mem_empty h
    omega

/-- Drops the oldest blocks while there is no room for another. -/
def makeRoom (x : OrphanIndex) : OrphanIndex :=
  if x.capacity ≤ x.orphans.size then
    match _h : x.oldest? with
    | some hash => makeRoom (x.remove hash).2
    | none => x
  else x
termination_by x.orphans.size
decreasing_by exact size_remove_lt (mem_of_oldest? _h)

/-- Adds a block. -/
def add (x : OrphanIndex) (block : Block) (now : Instant) : OrphanIndex :=
  let x := (x.dropExpired now).makeRoom
  let o : Orphan :=
    { hash := block.hash
      block
      expiry := now.addSeconds x.lifetime
      turn := x.turns }
  { x with
    orphans := x.orphans.insert block.hash o
    byParent := x.byParent.insert o.parent (x.byParent[o.parent]?.getD [] ++ [block.hash])
    turns := x.turns + 1 }

/-- Takes the orphans with some digests out of a table, in order. Those that have not expired are
the result. -/
def takeAll (now : Instant) (orphans : Std.ExtTreeMap Digest Orphan) :
    List Digest → List Block × Std.ExtTreeMap Digest Orphan
  | [] => ([], orphans)
  | hash :: hashes =>
    match orphans[hash]? with
    | none => takeAll now orphans hashes
    | some o =>
      let (blocks, others) := takeAll now (orphans.erase hash) hashes
      (if o.isExpired now then blocks else o.block :: blocks, others)

/-- Takes out all blocks that wait for a parent. Those that have not expired are the result. -/
def takeChildren (x : OrphanIndex) (parent : Digest) (now : Instant) :
    List Block × OrphanIndex :=
  match x.byParent[parent]? with
  | none => ([], x)
  | some children =>
    let (blocks, orphans) := takeAll now x.orphans children
    (blocks, { x with orphans, byParent := x.byParent.erase parent })

end OrphanIndex

/-! ## Calls -/

/-- What is asked of the orphans. -/
inductive OrphanCall where
  /-- hold a block from now on -/
  | add (block : Block) (now : Instant)
  /-- give up a block -/
  | remove (hash : Digest)
  /-- give up the blocks that wait for a parent -/
  | takeChildren (parent : Digest) (now : Instant)

/-- Makes a call. The blocks are those that are handed out. -/
def OrphanPool.perform (p : OrphanPool) : OrphanCall → List Block × OrphanPool
  | .add block now => ([], p.add block now)
  | .remove hash => (((p.find? hash).map (·.block)).toList, p.remove hash)
  | .takeChildren parent now => p.takeChildren parent now

/-- Makes a call. The blocks are those that are handed out. -/
def OrphanIndex.perform (x : OrphanIndex) : OrphanCall → List Block × OrphanIndex
  | .add block now => ([], x.add block now)
  | .remove hash =>
    let (block, x) := x.remove hash
    (block.toList, x)
  | .takeChildren parent now => x.takeChildren parent now

/-- Makes calls in order. The answers are in the same order. -/
def OrphanCall.performAll {π : Type} (perform : π → OrphanCall → List Block × π) (p : π) :
    List OrphanCall → List (List Block) × π
  | [] => ([], p)
  | call :: calls =>
    let (blocks, p) := perform p call
    let (answers, p) := performAll perform p calls
    (blocks :: answers, p)

end PermissionedLedger
