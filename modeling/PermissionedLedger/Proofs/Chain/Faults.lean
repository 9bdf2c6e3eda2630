import Mathlib
import PermissionedLedger.Proofs.Chain.Atomicity

/-!
# When the engine fails

A call that ends with a failure of the engine has done nothing, or it has added the block.
This holds of every chain, whatever its store contains and whichever commits are refused.

* **before the block is added** — nothing has changed, in the pool of orphans either;
* **after it was added** — the failure is that of a block which waited for it, directly or
  not. What was added until then stays, and the blocks that were taken out of the pool are
  lost (`Chain.unchanged_or_added_of_fault`).

The latter does happen: `Chain.fault_after_adding` is a run in which a journal is missing.
-/

namespace PermissionedLedger

open BlockTree
open Time (Instant)

variable {σ : Type} [ChainStore σ] {params : Params} {verify : Verifier} {flags : AddFlags}

namespace ChainState

variable {s s' : ChainState σ} {block : Block}

/-! ## What is known stays known -/

/-- Blocks that are known stay known. -/
def Grows (s s' : ChainState σ) : Prop :=
  ∀ hash, s.tree.contains hash = true → s'.tree.contains hash = true

omit [ChainStore σ] in
theorem Grows.refl (s : ChainState σ) : s.Grows s := fun _ h => h

omit [ChainStore σ] in
theorem Grows.trans {s'' : ChainState σ} (h : s.Grows s') (h' : s'.Grows s'') : s.Grows s'' :=
  fun hash hknown => h' hash (h hash hknown)

variable [LawfulChainStore σ]

/-- An attempt to add a block forgets no other. -/
theorem grows_of_accept {r : Except Failure Bool}
    (h : s.accept params verify block flags = (r, s')) : s.Grows s' := by
  intro hash hknown
  rcases accept_cases h with ⟨plan, hplan, -, htree, -⟩ | ⟨_, -, -, htree, -⟩
  · rw [BlockTree.contains, htree, Plan.find?_of_ofBlock hplan]
    split
    · rfl
    · exact hknown
  · rw [htree]
    exact hknown

theorem contains_of_accept {isTip : Bool}
    (h : s.accept params verify block flags = (.ok isTip, s')) :
    s'.tree.contains block.hash = true := by
  rcases accept_cases h with ⟨plan, hplan, -, htree, -⟩ | ⟨_, hr, -⟩
  · rw [BlockTree.contains, htree, Plan.find?_of_ofBlock hplan, if_pos rfl]
    rfl
  · cases hr

/-- A failure of the engine while a block is added changes nothing. -/
theorem unchanged_of_accept {fault : EngineFault}
    (h : s.accept params verify block flags = (.error (.engine fault), s')) : s.Unchanged s' := by
  rcases accept_cases h with ⟨plan, -, -, -, -, hr⟩ | ⟨_, -, htables, htree, hbest⟩
  · -- a plan fails by a rule only
    rcases hverdict : plan.verdict with violation | isTip
    · rw [hverdict] at hr
      cases hr
    · rw [hverdict] at hr
      cases hr
  · exact ⟨htree, hbest, htables⟩

theorem grows_of_acceptAll {accepted : List Digest} {blocks : List Block}
    {r : Except EngineFault (List Digest)}
    (h : acceptAll params verify flags s accepted blocks = (r, s')) : s.Grows s' := by
  induction blocks generalizing s accepted with
  | nil =>
    obtain ⟨-, rfl⟩ := Prod.mk.inj h
    exact .refl s
  | cons b blocks ih =>
    rw [acceptAll] at h
    rcases haccept : s.accept params verify b flags with ⟨r', u⟩
    have hgrows := grows_of_accept haccept
    rw [haccept] at h
    rcases r' with (violation | fault) | isTip
    · exact hgrows.trans (ih h)
    · obtain ⟨-, rfl⟩ := Prod.mk.inj h
      exact hgrows
    · exact hgrows.trans (ih h)

/-- What waits in the end did so before. -/
theorem grows_of_acceptOrphans {now : Instant} {pool pool' : OrphanPool} {parents : List Digest}
    {r : Except EngineFault Unit}
    (h : s.acceptOrphans params verify flags now pool parents = (r, s', pool')) :
    s.Grows s' ∧ pool'.held ⊆ pool.held := by
  fun_induction ChainState.acceptOrphans params verify flags now s pool parents with
  | case1 s pool =>
    obtain ⟨-, rfl, rfl⟩ := h
    exact ⟨.refl _, List.Subset.refl _⟩
  | case2 s pool parent parents taken fault u haccept =>
    obtain ⟨-, rfl, rfl⟩ := h
    exact ⟨grows_of_acceptAll haccept, pool.held_takeChildren_subset parent now⟩
  | case3 s pool parent parents taken accepted u haccept ih =>
    obtain ⟨hgrows, hsub⟩ := ih h
    exact ⟨(grows_of_acceptAll haccept).trans hgrows,
      List.Subset.trans hsub (pool.held_takeChildren_subset parent now)⟩

/-- Where the orphans of a block cannot be accepted, one was waiting. None is any longer. -/
theorem waiting_of_acceptOrphans {now : Instant} {pool pool' : OrphanPool} {hash : Digest}
    {fault : EngineFault}
    (h : s.acceptOrphans params verify flags now pool [hash] = (.error fault, s', pool')) :
    (∃ o ∈ pool.held, o.parent = hash ∧ o.isExpired now = false) ∧
      ∀ o ∈ pool'.held, o.parent ≠ hash := by
  have hothers : ∀ o ∈ (pool.takeChildren hash now).2.held, o.parent ≠ hash := by
    intro o ho
    rw [OrphanPool.held_takeChildren, List.mem_filter] at ho
    simpa using ho.2
  rw [acceptOrphans] at h
  -- without children there is nothing to do
  have hchildren : (pool.takeChildren hash now).1 ≠ [] := by
    intro hnil
    split at h
    · next haccept =>
      rw [hnil] at haccept
      cases haccept
    · next accepted u haccept =>
      rw [hnil] at haccept
      obtain ⟨haccepted, rfl⟩ := Prod.mk.inj haccept
      obtain rfl := Except.ok.inj haccepted
      rw [List.append_nil, acceptOrphans] at h
      cases h
  constructor
  · obtain ⟨b, hb⟩ := List.exists_mem_of_ne_nil _ hchildren
    obtain ⟨o, ho, hparent, hlasts, -⟩ := OrphanPool.mem_takeChildren.1 hb
    exact ⟨o, ho, hparent, hlasts⟩
  · split at h
    · obtain ⟨-, -, rfl⟩ := h
      exact hothers
    · obtain ⟨-, hsub⟩ := grows_of_acceptOrphans h
      exact fun o ho => hothers o (hsub ho)

end ChainState

/-! ## Calls -/

namespace Chain

variable {c c' : Chain σ} {block : Block} {now : Instant} {fault : EngineFault}

/-- Nothing has changed, orphans included. -/
structure Unchanged (c c' : Chain σ) : Prop extends c.toChainState.Unchanged c'.toChainState where
  /-- the same blocks wait -/
  orphans : c'.orphans = c.orphans
  /-- the network is the same -/
  params : c'.params = c.params
  /-- so is what is a valid signature -/
  verify : c'.verify = c.verify

/-- A call that ends with a failure of the engine has changed nothing, or has added its block and
lost the orphans that were waiting for it. -/
theorem unchanged_or_added_of_fault [LawfulChainStore σ]
    (h : c.process block flags now = (.error fault, c')) :
    (c.Unchanged c' ∧ c'.tree.contains block.hash = false) ∨
      (c'.tree.contains block.hash = true ∧
        (∃ o ∈ c.orphans.held, o.parent = block.hash ∧ o.isExpired now = false) ∧
        ∀ o ∈ c'.orphans.held, o.parent ≠ block.hash) := by
  rw [process] at h
  split at h
  · cases h
  next hcheck =>
  obtain ⟨hnew, -, -⟩ := checkNew_eq_ok hcheck
  split at h
  next =>
    split at h
    · cases h
    · next fault' s haccept =>
      -- the block itself
      obtain ⟨-, rfl⟩ := Prod.mk.inj h
      have hsame := ChainState.unchanged_of_accept haccept
      refine Or.inl ⟨⟨hsame, rfl, rfl, rfl⟩, ?_⟩
      change s.tree.contains block.hash = false
      rw [hsame.tree, BlockTree.contains, hnew]
      rfl
    · next isTip s haccept =>
      split at h
      · cases h
      · next fault' s' orphans horphans =>
        -- a block that waited for it
        obtain ⟨-, rfl⟩ := Prod.mk.inj h
        obtain ⟨hgrows, -⟩ := ChainState.grows_of_acceptOrphans horphans
        exact Or.inr ⟨hgrows _ (ChainState.contains_of_accept haccept),
          ChainState.waiting_of_acceptOrphans horphans⟩
  · cases h

end Chain

/-! ## A journal is missing -/

namespace Sample

/-- The sample chain whose store has lost the journal of the rival. -/
def withoutJournal (c : Chain MemoryStore) : Chain MemoryStore :=
  { c with store := ⟨c.store.tables.write (.deleteJournal rival.hash)⟩ }

/-- How a call ends that needs the journal: whether its block is known then, and how many orphans
wait before and after. -/
def failsOn (block : Block) (known : Bool) (before after : Nat) (c : Chain MemoryStore) : Bool :=
  match c.process block {} now with
  | (.error fault, c') => fault = .inconsistent (.journalMissing rival.hash) &&
      c.tree.contains block.hash = false && c'.tree.contains block.hash = known &&
      c.orphans.size = before && c'.orphans.size = after
  | _ => false

/-- The rival cannot be undone, neither for the second block itself nor where that waits for the
first. -/
theorem ends_withoutJournal :
    ((after? network now [rival, first]).any fun c => failsOn second false 0 0 (withoutJournal c)) =
      true ∧
    ((after? network now [rival, second]).any fun c => failsOn first true 1 0 (withoutJournal c)) =
      true := by
  decide +kernel

theorem of_failsOn {block : Block} {known : Bool} {before after : Nat} {c : Chain MemoryStore}
    (h : failsOn block known before after c = true) :
    ∃ c', c.process block {} now = (.error (.inconsistent (.journalMissing rival.hash)), c') ∧
      c.tree.contains block.hash = false ∧ c'.tree.contains block.hash = known ∧
      c.orphans.size = before ∧ c'.orphans.size = after := by
  rw [failsOn] at h
  split at h
  · next fault c' hprocess =>
    simp only [Bool.and_eq_true, decide_eq_true_eq] at h
    obtain ⟨⟨⟨⟨rfl, hbefore⟩, hafter⟩, hwaiting⟩, hleft⟩ := h
    exact ⟨c', hprocess, hbefore, hafter, hwaiting, hleft⟩
  · cases h

end Sample

namespace Chain

/-- Where the second block itself needs the journal, nothing has changed. -/
theorem unchanged_without_journal : ∃ c c' : Chain MemoryStore,
    c.process Sample.second {} Sample.now =
      (.error (.inconsistent (.journalMissing Sample.rival.hash)), c') ∧ c.Unchanged c' := by
  obtain ⟨c, store, -, hfails⟩ := Sample.exists_opened Sample.ends_withoutJournal.1
  obtain ⟨c', hprocess, -, hunknown, -⟩ := Sample.of_failsOn hfails
  refine ⟨_, c', hprocess, ?_⟩
  rcases unchanged_or_added_of_fault hprocess with ⟨hsame, -⟩ | ⟨hknown, -⟩
  · exact hsame
  · rw [hunknown] at hknown
    cases hknown

/-- A call can fail after its block was added. The second block waits for the first, which is only
stored. The switch to the second one fails, and then the first is known and the second is lost. -/
theorem fault_after_adding : ∃ (c c' : Chain MemoryStore) (fault : EngineFault),
    c.process Sample.first {} Sample.now = (.error fault, c') ∧ ¬ c.Unchanged c' ∧
      c.tree.contains Sample.first.hash = false ∧ c'.tree.contains Sample.first.hash = true ∧
      c.orphans.size = 1 ∧ c'.orphans.size = 0 := by
  obtain ⟨c, store, -, hfails⟩ := Sample.exists_opened Sample.ends_withoutJournal.2
  obtain ⟨c', hprocess, hbefore, hafter, hwaiting, hleft⟩ := Sample.of_failsOn hfails
  refine ⟨_, c', _, hprocess, ?_, hbefore, hafter, hwaiting, hleft⟩
  intro hsame
  rw [hsame.tree, hbefore] at hafter
  cases hafter

end Chain

end PermissionedLedger
