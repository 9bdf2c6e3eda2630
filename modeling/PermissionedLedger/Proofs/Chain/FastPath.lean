import Mathlib
import PermissionedLedger.Proofs.Chain.Restarts
import PermissionedLedger.Proofs.Chain.Runs

/-!
# Leaving checks out

`AddFlags.fastAdd` leaves checks out at three places: in the rules for the place of a
block, where key changes are authorized, and where blocks are connected. At each of them a
block that passes with the checks passes without them, with the same result
(`Block.checkPlacement_fastAdd`, `KeySets.applyBlock_of_verified`,
`Block.connect_fastAdd`).

So does a plan, be it for a switch to a branch with several blocks that were never checked
(`Plan.ofBlock_fastAdd`), and so does a whole call (`Chain.process_fastAdd`), as long as
no orphan waits for its block: the flags of a call are those of the orphans that it
connects, and an orphan that breaks a rule would be dropped in one case and kept in the
other.
-/

namespace PermissionedLedger

open Time (Instant)

variable {σ : Type} [ChainStore σ] {params : Params} {verify : Verifier} {flags : AddFlags}

/-! ## Where checks are left out -/

/-- A block whose place is allowed by all rules is allowed by those that are never left out. -/
theorem Block.checkPlacement_fastAdd {b : Block} {t : BlockTree} {p height : Nat}
    (h : b.checkPlacement params t p flags = .ok height) :
    b.checkPlacement params t p { flags with fastAdd := true } = .ok height := by
  rw [checkPlacement] at h ⊢
  obtain ⟨_, hheight, h⟩ := bind_eq_ok.1 h
  refine bind_eq_ok.2 ⟨(), hheight, ?_⟩
  rw [if_pos rfl]
  split at h
  · exact h
  · obtain ⟨_, -, h⟩ := bind_eq_ok.1 h
    obtain ⟨_, hcheckpoints, h⟩ := bind_eq_ok.1 h
    obtain ⟨_, -, h⟩ := bind_eq_ok.1 h
    obtain ⟨_, -, h⟩ := bind_eq_ok.1 h
    exact bind_eq_ok.2 ⟨(), hcheckpoints, h⟩

namespace KeySets

variable {keys keys' : KeySets} {threshold : Nat}

/-- Key changes that are authorized are possible. -/
theorem applyTransaction_of_verified {tx : Transaction} {thread : Thread}
    (h : keys.applyTransaction threshold (some verify) tx thread = .ok keys') :
    keys.applyTransaction threshold none tx thread = .ok keys' := by
  rw [applyTransaction.eq_def] at h ⊢
  obtain ⟨_, -, h⟩ := bind_eq_ok.1 h
  cases thread <;> exact h

theorem applyAll_of_verified {txs : List Transaction}
    (h : applyAll threshold (some verify) keys txs = .ok keys') :
    applyAll threshold none keys txs = .ok keys' := by
  induction txs generalizing keys with
  | nil => exact h
  | cons tx txs ih =>
    rw [applyAll] at h ⊢
    split at h
    · exact ih h
    · split at h
      · next hnext =>
        simp only [applyTransaction_of_verified hnext]
        exact ih h
      · cases h

/-- The keys after a block whose signatures were looked at are those without a look at them. -/
theorem applyBlock_of_verified {b : Block}
    (h : keys.applyBlock params (some verify) b = .ok keys') :
    keys.applyBlock params none b = .ok keys' :=
  applyAll_of_verified h

end KeySets

/-- A block that passes the checks is connected alike without them. -/
theorem Block.connect_fastAdd {b : Block} {height : Nat} {view : CoinView}
    {r : CoinView × Journal} (h : b.connect height params view verify flags = .ok r) :
    b.connect height params view verify { flags with fastAdd := true } = .ok r :=
  (connect_eq_ok_of_trusted rfl).2 (connect_of_connect_eq_ok h)

/-! ## Switches -/

namespace Switch

variable {T : Tables} {newest : Block} {view view' : CoinView}

theorem connectNode_fastAdd {node : TreeNode} {block : Block} {r : CoinView × Journal}
    (h : connectNode params verify flags view node block = .ok r) :
    connectNode params verify { flags with fastAdd := true } view node block = .ok r := by
  rw [connectNode] at h ⊢
  rcases hstatus : node.status <;> rw [hstatus] at h
  · exact Block.connect_fastAdd h
  · exact h
  · cases h

/-- A branch that is attached as a whole is attached alike without checks. -/
theorem attach_fastAdd {ps : List (Nat × TreeNode)} {writes : Batch}
    (h : attach T params verify flags newest view ps = .ok (.complete view' writes)) :
    attach T params verify { flags with fastAdd := true } newest view ps =
      .ok (.complete view' writes) := by
  induction ps generalizing view writes with
  | nil => exact h
  | cons p ps ih =>
    obtain ⟨id, node⟩ := p
    rcases attach_cons_eq_ok h with ⟨_, _, -, -, hbroken⟩ |
      ⟨block, u, journal, ⟨v, more⟩ | ⟨_, _⟩, hblock, hconnect, hmore, heq⟩
    · cases hbroken
    · obtain ⟨rfl, rfl⟩ := Attached.complete.inj heq
      rw [attach]
      refine bind_eq_ok.2 ⟨block, mapError_eq_ok.2 hblock, ?_⟩
      simp only [connectNode_fastAdd hconnect]
      exact bind_eq_ok.2 ⟨_, ih hmore, rfl⟩
    · cases heq

end Switch

/-! ## Plans -/

namespace Plan

variable {s : Setting} {tree : BlockTree} {best : BestState} {block : Block} {plan : Plan}
  {isTip : Bool}

theorem reorganize_fastAdd {tip fork id : Nat} {node : TreeNode} {pending : Batch}
    (h : reorganize s tree best tip fork id node block flags pending = .ok plan)
    (hverdict : plan.verdict = .ok isTip) :
    reorganize s tree best tip fork id node block { flags with fastAdd := true } pending =
      .ok plan := by
  rw [reorganize] at h ⊢
  obtain ⟨hpath, h⟩ := require_bind_eq_ok.1 h
  obtain ⟨⟨view, dropped⟩, hdetach, h⟩ := bind_eq_ok.1 h
  obtain ⟨attached, hattach, h⟩ := bind_eq_ok.1 h
  rcases attached with ⟨view', writes⟩ | ⟨failed, violation⟩
  · refine require_bind_eq_ok.2 ⟨hpath, bind_eq_ok.2 ⟨_, hdetach, ?_⟩⟩
    exact bind_eq_ok.2 ⟨_, Switch.attach_fastAdd hattach, h⟩
  · -- a switch that is given up accepts nothing
    obtain rfl := Except.ok.inj h
    cases hverdict

theorem select_fastAdd {id : Nat} {node : TreeNode} {pending : Batch}
    (h : select s tree best id node block flags pending = .ok plan)
    (hverdict : plan.verdict = .ok isTip) :
    select s tree best id node block { flags with fastAdd := true } pending = .ok plan := by
  rw [select] at h ⊢
  split at h
  · cases h
  · split at h
    · next hside =>
      rw [if_pos hside]
      exact h
    · next hchosen =>
      rw [if_neg hchosen]
      split at h
      · cases h
      · split at h
        · exact h
        · exact reorganize_fastAdd h hverdict

theorem keysAfter_fastAdd {p : Nat} {parent : TreeNode} {keys : KeySets}
    (h : keysAfter s tree p parent block flags = .ok keys) :
    keysAfter s tree p parent block { flags with fastAdd := true } = .ok keys := by
  rw [keysAfter] at h ⊢
  obtain ⟨husable, h⟩ := require_bind_eq_ok.1 h
  obtain ⟨height, hplaced, h⟩ := bind_eq_ok.1 h
  rw [mapError_eq_ok] at hplaced
  refine require_bind_eq_ok.2 ⟨husable, bind_eq_ok.2 ⟨height, ?_, ?_⟩⟩
  · exact mapError_eq_ok.2 (Block.checkPlacement_fastAdd hplaced)
  · rw [if_pos rfl]
    split at h
    · exact h
    · exact KeySets.applyBlock_of_verified h

/-- A plan that accepts its block is the plan without checks. -/
theorem ofBlock_fastAdd (h : ofBlock s tree best block flags = .ok plan)
    (hverdict : plan.verdict = .ok isTip) :
    ofBlock s tree best block { flags with fastAdd := true } = .ok plan := by
  rw [ofBlock] at h
  rw [ofBlock]
  simp only at h
  split at h
  · cases h
  · obtain ⟨keys, hkeys, h⟩ := bind_eq_ok.1 h
    rw [mapError_eq_ok] at hkeys h
    refine bind_eq_ok.2 ⟨keys, mapError_eq_ok.2 (keysAfter_fastAdd hkeys), ?_⟩
    exact mapError_eq_ok.2 (select_fastAdd h hverdict)

end Plan

/-! ## Calls -/

/-- A block that is accepted is accepted alike without checks. -/
theorem ChainState.accept_fastAdd {s s' : ChainState σ} {block : Block} {isTip : Bool}
    (h : s.accept params verify block flags = (.ok isTip, s')) :
    s.accept params verify block { flags with fastAdd := true } = (.ok isTip, s') := by
  rw [accept] at h ⊢
  split at h
  · cases h
  · next plan hplan =>
    split at h
    · cases h
    · next hcommit =>
      obtain ⟨hverdict, -⟩ := Prod.mk.inj h
      simp only [Plan.ofBlock_fastAdd hplan (mapError_eq_ok.1 hverdict), hcommit]
      exact h

/-- A parent that no orphan waits for releases none, and the pool stays as it is. -/
theorem OrphanPool.takeChildren_of_childless {pool : OrphanPool} {parent : Digest}
    (h : ∀ o ∈ pool.held, o.parent ≠ parent) (now : Instant) :
    pool.takeChildren parent now = ([], pool) := by
  have hchildren : pool.held.filter (·.parent = parent) = [] :=
    List.filter_eq_nil_iff.2 fun o ho => by simpa using h o ho
  have hothers : pool.held.filter (fun o => !decide (o.parent = parent)) = pool.held :=
    List.filter_eq_self.2 fun o ho => by simpa using h o ho
  simp only [takeChildren, List.partition_eq_filter_filter, hchildren, List.filter_nil,
    List.map_nil, Function.comp_def, hothers]

/-- No orphans are accepted where none waits. -/
theorem ChainState.acceptOrphans_of_childless {s : ChainState σ} {pool : OrphanPool}
    {parent : Digest} (h : ∀ o ∈ pool.held, o.parent ≠ parent) (flags : AddFlags)
    (now : Instant) :
    s.acceptOrphans params verify flags now pool [parent] = (.ok (), s, pool) := by
  have hnone : s.acceptAll params verify flags [] (pool.takeChildren parent now).1 = (.ok [], s) :=
    by rw [OrphanPool.takeChildren_of_childless h, acceptAll]
  rw [acceptOrphans_cons_of_ok hnone, OrphanPool.takeChildren_of_childless h, List.append_nil]
  exact acceptOrphans.eq_1 ..

/-- A block that is accepted with all checks, and that no orphan waits for, is accepted without them
with the same answer, and leaves the same chain behind. -/
theorem Chain.process_fastAdd {c : Chain σ} {block : Block} {now : Instant} {outcome : Outcome}
    (hchildless : ∀ o ∈ c.orphans.held, o.parent ≠ block.hash)
    (h : (c.process block flags now).1 = .ok outcome)
    (haccepted : ∀ violation, outcome ≠ .rejected violation) :
    c.process block { flags with fastAdd := true } now = c.process block flags now := by
  -- what is checked before the parent is looked for depends on the other flag only
  have hnew : c.checkNew block { flags with fastAdd := true } now = c.checkNew block flags now :=
    rfl
  rw [process] at h
  rw [process, process, hnew]
  split at h
  · obtain rfl := Except.ok.inj h
    exact absurd rfl (haccepted _)
  · split at h
    · next hparent =>
      rw [if_pos hparent, if_pos hparent]
      split at h
      · obtain rfl := Except.ok.inj h
        exact absurd rfl (haccepted _)
      · cases h
      · next isTip s haccept =>
        simp only [ChainState.accept_fastAdd haccept,
          ChainState.acceptOrphans_of_childless hchildless]
    · next hparent => rw [if_neg hparent, if_neg hparent]

/-! ## A sample switch -/

namespace Sample

/-- The first block waits unchecked on a side branch, no orphan waits at all, and the second block
is accepted as the tip. -/
def takesAlong (c : Chain MemoryStore) : Bool :=
  c.orphans.held.isEmpty && c.status? first.hash = some .unvalidated &&
    match (c.process second {} now).1 with
    | .ok (.accepted isTip) => isTip
    | _ => false

theorem takesAlong_after : (after? network now [rival, first]).any takesAlong = true := by
  decide +kernel

end Sample

/-- In the sample the second block takes along the first one, which was never checked. Without
checks it does the same. -/
theorem Chain.process_fastAdd_second : ∃ c : Chain MemoryStore,
    c.Reachable Sample.network Sample.trusting (fun _ => True) ∧ c.orphans.held = [] ∧
    c.status? Sample.first.hash = some .unvalidated ∧
    (c.process Sample.second {} Sample.now).1 = .ok (.accepted true) ∧
    c.process Sample.second { fastAdd := true } Sample.now =
      c.process Sample.second {} Sample.now := by
  obtain ⟨c, store, hopen, htakes⟩ := Sample.exists_opened Sample.takesAlong_after
  have hopened : c.Reachable Sample.network Sample.trusting fun _ => True := .opened rfl hopen
  have hreached := hopened.submit trivial Sample.now [Sample.rival, Sample.first]
  simp only [Sample.takesAlong, Bool.and_eq_true, decide_eq_true_eq, List.isEmpty_iff] at htakes
  obtain ⟨⟨hnone, hunchecked⟩, htip⟩ := htakes
  split at htip
  · next isTip haccepted =>
    subst htip
    have hchildless : ∀ o ∈ (c.submit Sample.now [Sample.rival, Sample.first]).orphans.held,
        o.parent ≠ Sample.second.hash := by
      rw [hnone]
      exact List.forall_mem_nil _
    have hfast := Chain.process_fastAdd hchildless haccepted fun _ h => Outcome.noConfusion h
    exact ⟨_, hreached, hnone, hunchecked, haccepted, hfast⟩
  · cases htip

end PermissionedLedger
