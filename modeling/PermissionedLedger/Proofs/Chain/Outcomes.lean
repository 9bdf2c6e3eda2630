import Mathlib
import PermissionedLedger.Proofs.Chain.Faults
import PermissionedLedger.Proofs.Chain.Reopening
import PermissionedLedger.Proofs.Chain.Trust

/-!
# Every call has an outcome

On a reliable store no block, no flags and no time make the engine fail
(`Chain.answers_every_call`). What is stored fits together whatever was submitted before:
the tree shows the tables (`Mirror`), and blocks of the main chain have their journals
(`Journaled`). Blocks that are added have parents in the tree, those taken out of the pool
of orphans included (`ChainState.Ready`).

Nothing here depends on which rules blocks were checked by, nor on digests being different.
-/

namespace PermissionedLedger

open BlockTree
open Time (Instant)

variable {σ : Type} [ChainStore σ] {params : Params} {verify : Verifier} {flags : AddFlags}

/-! ## During a call -/

namespace ChainState

/-- What is stored fits together. Some blocks wait, and others can be added now, under parents that
are known. -/
structure Ready (params : Params) (verify : Verifier) (s : ChainState σ)
    (held next : List Block) : Prop where
  /-- the tree shows the tables -/
  mirror : Mirror params s.tables s.tree
  /-- the main chain can be undone -/
  journaled : Journaled s.tables s.tree
  /-- all these blocks are new -/
  waiting : Waiting (Block.Checked params verify) s.tree (next ++ held)
  /-- the parents of the next ones are known -/
  reached : ∀ b ∈ next, s.tree.contains b.header.previous = true

namespace Ready

variable {s : ChainState σ} {held next : List Block} {b : Block}

/-- Blocks whose parent is known can be taken out of the pool and added. -/
theorem takeChildren {pool : OrphanPool} {parent : Digest}
    (h : Ready params verify s pool.blocks []) (hparent : s.tree.contains parent = true)
    (now : Instant) :
    Ready params verify s (pool.takeChildren parent now).2.blocks
      (pool.takeChildren parent now).1 where
  mirror := h.mirror
  journaled := h.journaled
  waiting := by
    obtain ⟨children, hsub, hperm⟩ := pool.blocks_takeChildren parent now
    exact (h.waiting.perm hperm).sublist (hsub.append (List.Sublist.refl _))
  reached := by
    intro b hb
    obtain ⟨o, -, rfl, -, rfl⟩ := OrphanPool.mem_takeChildren.1 hb
    exact hparent

variable [ReliableChainStore σ]

/-- The next block is accepted, or breaks a rule. -/
theorem accept (h : Ready params verify s held (b :: next)) (flags : AddFlags) :
    ∃ (r : Except Violation Bool) (s' : ChainState σ),
      s.accept params verify b flags = (r.mapError .rule, s') ∧
        Ready params verify s' held next := by
  have hwf := (h.waiting.holds b (List.mem_cons_self ..)).wellFormed
  have hnew := h.waiting.unknown b (List.mem_cons_self ..)
  obtain ⟨p, hfound⟩ := Option.isSome_iff_exists.1 (h.reached b (List.mem_cons_self ..))
  obtain ⟨node, hnode, -⟩ := h.mirror.coherent.find?_iff.1 hfound
  have hrest : ∀ {r s'}, s.accept params verify b flags = (r, s') →
      Waiting (Block.Checked params verify) s'.tree (next ++ held) ∧
        ∀ c ∈ next, s'.tree.contains c.header.previous = true := fun haccept =>
    ⟨h.waiting.accept haccept,
      fun c hc => grows_of_accept haccept _ (h.reached c (List.mem_cons_of_mem _ hc))⟩
  rcases accept_of_reliable flags h.mirror h.journaled hwf hnew hfound hnode with
    ⟨violation, -, haccept⟩ | ⟨keys, plan, s', hadds, haccept, htables, htree⟩
  · obtain ⟨hwaiting, hreached⟩ := hrest haccept
    exact ⟨.error violation, s, haccept, h.mirror, h.journaled, hwaiting, hreached⟩
  · obtain ⟨hwaiting, hreached⟩ := hrest haccept
    refine ⟨plan.verdict, s', haccept, ?_, ?_, hwaiting, hreached⟩
    · rw [htables, htree]
      exact h.mirror.of_plan hadds
    · rw [htables, htree]
      exact h.journaled.of_plan h.mirror hadds

/-- All next blocks are tried, and those that are accepted are known then. -/
theorem acceptAll (h : Ready params verify s held next) (flags : AddFlags)
    {accepted : List Digest} (hknown : ∀ hash ∈ accepted, s.tree.contains hash = true) :
    ∃ accepted' s', ChainState.acceptAll params verify flags s accepted next =
        (.ok accepted', s') ∧
      Ready params verify s' held [] ∧ ∀ hash ∈ accepted', s'.tree.contains hash = true := by
  induction next generalizing s accepted with
  | nil => exact ⟨accepted, s, rfl, h, hknown⟩
  | cons b next ih =>
    obtain ⟨r, s', haccept, h'⟩ := h.accept flags
    have hgrows := grows_of_accept haccept
    rw [ChainState.acceptAll, haccept]
    rcases r with violation | isTip
    · exact ih h' fun hash hin => hgrows hash (hknown hash hin)
    · refine ih h' fun hash hin => ?_
      rcases List.mem_cons.1 hin with rfl | hin
      · exact contains_of_accept haccept
      · exact hgrows hash (hknown hash hin)

/-- All orphans that descend from known blocks are tried. -/
theorem acceptOrphans {pool : OrphanPool} {parents : List Digest}
    (h : Ready params verify s pool.blocks [])
    (hknown : ∀ hash ∈ parents, s.tree.contains hash = true) (flags : AddFlags) (now : Instant) :
    ∃ s' pool', s.acceptOrphans params verify flags now pool parents = (.ok (), s', pool') := by
  fun_induction ChainState.acceptOrphans params verify flags now s pool parents with
  | case1 s pool => exact ⟨s, pool, rfl⟩
  | case2 s pool parent parents taken fault u haccept =>
    have htaken := h.takeChildren (hknown parent (List.mem_cons_self ..)) now
    obtain ⟨accepted, s', haccept', -⟩ := htaken.acceptAll flags (List.forall_mem_nil _)
    cases haccept.symm.trans haccept'
  | case3 s pool parent parents taken accepted u haccept ih =>
    have htaken := h.takeChildren (hknown parent (List.mem_cons_self ..)) now
    obtain ⟨accepted', s', haccept', h', hknown'⟩ := htaken.acceptAll flags (List.forall_mem_nil _)
    have hgrows := grows_of_acceptAll haccept
    obtain ⟨heq, rfl⟩ := Prod.mk.inj (haccept.symm.trans haccept')
    obtain rfl := Except.ok.inj heq
    refine ih h' fun hash hin => ?_
    rcases List.mem_append.1 hin with hin | hin
    · exact hknown' hash hin
    · exact hgrows hash (hknown hash (List.mem_cons_of_mem _ hin))

end Ready

end ChainState

/-! ## Reachable chains -/

theorem journaled_keptByPlans {allowed : AddFlags → Prop} :
    KeptByPlans params verify allowed fun T t _ => Journaled T t :=
  fun _ _ _ _ _ _ _ _ _ _ hm hj _ hadds => hj.of_plan hm hadds

theorem journaled_keptByLoading : KeptByLoading params fun T t _ => Journaled T t :=
  fun _ _ _ _ _ h h' _ hj => hj.of_mirror h h'

namespace Chain

variable {c : Chain σ} {allowed : AddFlags → Prop}

theorem Reachable.journaled [LawfulChainStore σ] (h : Reachable params verify allowed c) :
    Journaled c.tables c.tree :=
  (h.invariant (params.accurate_genesis.journaled params.mirror_genesis) journaled_keptByPlans
    journaled_keptByLoading).2

/-- A reachable chain can be opened anew. -/
theorem Reachable.exists_openStore [LawfulChainStore σ] (h : Reachable params verify allowed c)
    (pool : OrphanPool) : ∃ c', openStore params verify pool c.store = (.ok c', c.store) :=
  exists_openStore_of_mirror verify pool h.mirror

variable [ReliableChainStore σ]

/-- A call on a reachable chain has an outcome. -/
theorem Reachable.exists_outcome (h : Reachable params verify allowed c) (block : Block)
    (flags : AddFlags) (now : Instant) :
    ∃ outcome, (c.process block flags now).1 = .ok outcome := by
  obtain ⟨hc, rfl, rfl⟩ := h.orderly
  rw [process]
  rcases hcheckNew : c.checkNew block flags now with violation | u
  · exact ⟨_, rfl⟩
  obtain ⟨-, -, hcheck⟩ := checkNew_eq_ok hcheckNew
  simp only
  split
  · next hparent =>
    have hready : ChainState.Ready c.params c.verify c.toChainState c.orphans.blocks [block] :=
      ⟨h.mirror, h.journaled, hc.waiting_cons ⟨now, flags, hcheck⟩ hcheckNew, by simpa using hparent⟩
    obtain ⟨r, s', haccept, hready'⟩ := hready.accept flags
    rw [haccept]
    rcases r with violation | isTip
    · exact ⟨_, rfl⟩
    · have hknown : ∀ hash ∈ [block.hash], s'.tree.contains hash = true := by
        simpa using ChainState.contains_of_accept haccept
      obtain ⟨s'', pool', horphans⟩ := hready'.acceptOrphans hknown flags now
      simp only [Except.mapError, horphans]
      exact ⟨_, rfl⟩
  · exact ⟨_, rfl⟩

/-- Whatever is submitted to a new chain on a reliable store, every call has an outcome, and the
store can be opened again. -/
theorem answers_every_call (params : Params) (verify : Verifier) {store : σ}
    (hempty : ChainStore.tables store = {}) (capacity : Nat) (lifetime : Int) :
    ∃ c store', openStore params verify (.ofLimits capacity lifetime) store = (.ok c, store') ∧
      ∀ calls : List Call,
        (∀ call : Call, ∃ outcome,
          ((c.run calls).process call.block call.flags call.now).1 = .ok outcome) ∧
        ∀ pool, ∃ c', openStore params verify pool (c.run calls).store =
          (.ok c', (c.run calls).store) := by
  obtain ⟨c, store', hopen⟩ := exists_openStore_of_empty params verify
    (.ofLimits capacity lifetime) hempty
  refine ⟨c, store', hopen, fun calls => ?_⟩
  have hopened : Reachable params verify (fun _ => True) c := .opened hempty hopen
  have hreached : Reachable params verify (fun _ => True) (c.run calls) :=
    hopened.run fun _ _ => trivial
  exact ⟨fun call => hreached.exists_outcome call.block call.flags call.now,
    hreached.exists_openStore⟩

/-- A block that nobody signed is connected unchecked when its parent is vouched for. The chain goes
on all the same. -/
theorem answers_after_vouching :
    ChainStore.tables ({} : MemoryStore) = {} ∧
    ∃ c store', openStore Sample.network Sample.trusting (.ofLimits 4 3600) ({} : MemoryStore) =
        (.ok c, store') ∧
      (∃ outcome, ((c.run [Sample.offer Sample.overpaid, Sample.vouch]).process Sample.rival {}
        Sample.now).1 = .ok outcome) ∧
      ∃ c', openStore Sample.network Sample.trusting (.ofLimits 4 3600)
          (c.run [Sample.offer Sample.overpaid, Sample.vouch]).store =
        (.ok c', (c.run [Sample.offer Sample.overpaid, Sample.vouch]).store) := by
  refine ⟨rfl, ?_⟩
  obtain ⟨c, store', hopen, hcalls⟩ := answers_every_call Sample.network Sample.trusting
    (σ := MemoryStore) rfl 4 3600
  obtain ⟨houtcome, hreopen⟩ := hcalls [Sample.offer Sample.overpaid, Sample.vouch]
  exact ⟨c, store', hopen, houtcome (Sample.offer Sample.rival), hreopen _⟩

end Chain

end PermissionedLedger
