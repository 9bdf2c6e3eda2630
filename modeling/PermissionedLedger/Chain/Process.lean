import PermissionedLedger.Chain.Orphans
import PermissionedLedger.Chain.Plan

/-!
# Processing blocks

`Chain.process` is how a block gets into a chain. It is checked by itself. If its
parent is not known it then waits as an orphan; if it is, the block is accepted, and
after it the orphans that descend from it.

`ChainState.accept` carries out a plan with a single commit. A plan that cannot be
made, or whose commit is refused, leaves the tree and the best state as they were.
An orphan that breaks a rule is dropped; any other failure ends the call.
-/

namespace PermissionedLedger

open Time (Instant)

variable {σ : Type} [ChainStore σ]

/-- A chain apart from the blocks that wait. -/
structure ChainState (σ : Type) where
  /-- where the chain is kept -/
  store : σ
  /-- all known blocks -/
  tree : BlockTree
  /-- the tip -/
  best : BestState

namespace ChainState

/-- Adds a block under a known parent. The result says whether it is the tip now. -/
def accept (s : ChainState σ) (params : Params) (verify : Verifier) (block : Block)
    (flags : AddFlags) : Except Failure Bool × ChainState σ :=
  match Plan.ofBlock ⟨params, verify, ChainStore.tables s.store⟩ s.tree s.best block flags with
  | .error failure => (.error failure, s)
  | .ok plan =>
    match ChainStore.commit s.store plan.batch with
    | (.error e, store) => (.error (.engine (.store e)), { s with store })
    | (.ok (), store) =>
      (plan.verdict.mapError .rule, { store, tree := plan.tree, best := plan.best })

/-- Adds blocks under known parents one after another. The result lists the digests of those that
were accepted, latest first. -/
def acceptAll (params : Params) (verify : Verifier) (flags : AddFlags) :
    ChainState σ → (accepted : List Digest) → List Block →
      Except EngineFault (List Digest) × ChainState σ
  | s, accepted, [] => (.ok accepted, s)
  | s, accepted, block :: blocks =>
    match s.accept params verify block flags with
    | (.ok _, s) => acceptAll params verify flags s (block.hash :: accepted) blocks
    | (.error (.rule _), s) => acceptAll params verify flags s accepted blocks
    | (.error (.engine fault), s) => (.error fault, s)

/-- No more blocks are accepted than there are. -/
theorem length_acceptAll {params : Params} {verify : Verifier} {flags : AddFlags}
    {s s' : ChainState σ} {accepted result : List Digest} {blocks : List Block}
    (h : acceptAll params verify flags s accepted blocks = (.ok result, s')) :
    result.length ≤ accepted.length + blocks.length := by
  induction blocks generalizing s accepted with
  | nil =>
    simp only [acceptAll, Prod.mk.injEq, Except.ok.injEq] at h
    simp [h.1]
  | cons block blocks ih =>
    rw [acceptAll] at h
    split at h
    · have := ih h
      simp only [List.length_cons] at this ⊢
      omega
    · have := ih h
      simp only [List.length_cons]
      omega
    · simp at h

end ChainState

/-- A block is taken out of the pool for every one that a parent releases. -/
theorem OrphanPool.length_takeChildren (p : OrphanPool) (parent : Digest) (now : Instant) :
    (p.takeChildren parent now).1.length + (p.takeChildren parent now).2.size ≤ p.size := by
  simp only [takeChildren, size, List.partition_eq_filter_filter, List.length_map]
  have hle := List.length_filter_le (fun o => !o.isExpired now)
    (p.held.filter fun o => decide (o.parent = parent))
  have hsplit := List.length_eq_countP_add_countP (l := p.held)
    (fun o => decide (o.parent = parent))
  simp only [List.countP_eq_length_filter, decide_eq_true_eq, Function.comp_def, decide_not] at *
  omega

/-- Accepts the orphans that descend from the given blocks, the last of these first. -/
def ChainState.acceptOrphans (params : Params) (verify : Verifier) (flags : AddFlags)
    (now : Instant) (s : ChainState σ) (pool : OrphanPool) (parents : List Digest) :
    Except EngineFault Unit × ChainState σ × OrphanPool :=
  match parents with
  | [] => (.ok (), s, pool)
  | parent :: parents =>
    let taken := pool.takeChildren parent now
    match _h : s.acceptAll params verify flags [] taken.1 with
    | (.error fault, s) => (.error fault, s, taken.2)
    | (.ok accepted, s) =>
      acceptOrphans params verify flags now s taken.2 (accepted ++ parents)
termination_by 2 * pool.size + parents.length
decreasing_by
  have haccepted := ChainState.length_acceptAll _h
  have htaken := pool.length_takeChildren parent now
  simp only [List.length_nil, Nat.zero_add] at haccepted
  simp only [List.length_append, List.length_cons, taken] at *
  omega

/-- A chain that is kept in a store, and the blocks that wait to be part of it. -/
structure Chain (σ : Type) extends ChainState σ where
  /-- the network -/
  params : Params
  /-- what is a valid signature -/
  verify : Verifier
  /-- blocks whose parent is not known -/
  orphans : OrphanPool

/-- What became of a block. -/
inductive Outcome where
  /-- it was accepted, and was the tip then or not -/
  | accepted (isTip : Bool)
  /-- it waits for its parent -/
  | orphaned
  /-- it breaks a rule -/
  | rejected (violation : Violation)

namespace Chain

/-- Whether a block is known, be it only as an orphan. -/
def has (c : Chain σ) (hash : Digest) : Bool := c.tree.contains hash || c.orphans.contains hash

/-- What is checked of a block before its parent is looked for. -/
def checkNew (c : Chain σ) (block : Block) (flags : AddFlags) (now : Instant) :
    Except Violation Unit := do
  require (c.has block.hash = false) (.placement (.alreadyKnown block.hash))
  block.check c.params now c.verify flags
  (block.checkBounds c.params c.tree flags).mapError .placement

/-- Adds a block to a chain. A failure of the engine ends the call where it occurs. -/
def process (c : Chain σ) (block : Block) (flags : AddFlags) (now : Instant) :
    Except EngineFault Outcome × Chain σ :=
  match c.checkNew block flags now with
  | .error violation => (.ok (.rejected violation), c)
  | .ok () =>
    if c.tree.contains block.header.previous then
      match c.accept c.params c.verify block flags with
      | (.error (.rule violation), s) => (.ok (.rejected violation), { c with toChainState := s })
      | (.error (.engine fault), s) => (.error fault, { c with toChainState := s })
      | (.ok isTip, s) =>
        match s.acceptOrphans c.params c.verify flags now c.orphans [block.hash] with
        | (.ok (), s, orphans) => (.ok (.accepted isTip), { c with toChainState := s, orphans })
        | (.error fault, s, orphans) => (.error fault, { c with toChainState := s, orphans })
    else (.ok .orphaned, { c with orphans := c.orphans.add block now })

end Chain

end PermissionedLedger
