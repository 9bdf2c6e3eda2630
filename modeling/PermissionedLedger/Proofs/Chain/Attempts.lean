import Mathlib
import PermissionedLedger.Proofs.Chain.Faults

/-!
# What a call attempts

A call tries to add its block, and then the orphans that descend from it, one after another.
These attempts are written down in a list (`Chain.attempts`): each is a block together with the
chain as it is just before.

* **nothing else happens** — every attempt begins where the one before it ended, and the call
  ends where the last one did (`Chain.attempts_linked`).
* **nothing is tried twice** — the blocks are the one that was submitted and some that were in
  the pool (`Chain.attempts_subperm`).
* **nothing is passed over** — if the call does not fail, the pool holds no child of a block that
  was accepted; those that had not expired were tried (`Chain.released_of_process`).
-/

namespace PermissionedLedger

open Time (Instant)

variable {σ : Type} [ChainStore σ] {params : Params} {verify : Verifier} {flags : AddFlags}
  {now : Instant}

/-- A block that is about to be added to a chain, which is in the middle of a call. -/
structure Attempt (σ : Type) where
  /-- the chain before -/
  state : ChainState σ
  /-- the block -/
  block : Block

/-- The block is accepted. -/
def Attempt.Accepted (params : Params) (verify : Verifier) (flags : AddFlags) (a : Attempt σ) :
    Prop :=
  (a.state.accept params verify a.block flags).1.isOk = true

instance (params : Params) (verify : Verifier) (flags : AddFlags) (a : Attempt σ) :
    Decidable (a.Accepted params verify flags) :=
  inferInstanceAs (Decidable (_ = true))

namespace ChainState

/-- The attempts to add blocks one after another. -/
def attemptAll (params : Params) (verify : Verifier) (flags : AddFlags) :
    ChainState σ → List Block → List (Attempt σ)
  | _, [] => []
  | s, block :: blocks =>
    ⟨s, block⟩ ::
      match s.accept params verify block flags with
      | (.error (.engine _), _) => []
      | (_, s) => attemptAll params verify flags s blocks

/-- The attempts to add the orphans that descend from the given blocks. -/
def attemptOrphans (params : Params) (verify : Verifier) (flags : AddFlags) (now : Instant)
    (s : ChainState σ) (pool : OrphanPool) (parents : List Digest) : List (Attempt σ) :=
  match parents with
  | [] => []
  | parent :: parents =>
    let taken := pool.takeChildren parent now
    s.attemptAll params verify flags taken.1 ++
      match _h : s.acceptAll params verify flags [] taken.1 with
      | (.error _, _) => []
      | (.ok accepted, s) =>
        attemptOrphans params verify flags now s taken.2 (accepted ++ parents)
termination_by 2 * pool.size + parents.length
decreasing_by
  have haccepted := ChainState.length_acceptAll _h
  have htaken := pool.length_takeChildren parent now
  simp only [List.length_nil, Nat.zero_add] at haccepted
  simp only [List.length_append, List.length_cons, taken] at *
  omega

/-- Attempts that follow upon each other lead from one chain to another. -/
inductive Linked (params : Params) (verify : Verifier) (flags : AddFlags) :
    ChainState σ → List (Attempt σ) → ChainState σ → Prop
  | nil (s : ChainState σ) : Linked params verify flags s [] s
  | cons {s u s' : ChainState σ} {block : Block} {r : Except Failure Bool}
      {attempts : List (Attempt σ)} (first : s.accept params verify block flags = (r, u))
      (rest : Linked params verify flags u attempts s') :
      Linked params verify flags s (⟨s, block⟩ :: attempts) s'

variable {s u s' : ChainState σ} {pool pool' : OrphanPool} {parents : List Digest}
  {accepted accepted' : List Digest} {blocks : List Block}

theorem attemptAll_cons_of_accept {block : Block} {r : Except Failure Bool}
    (h : s.accept params verify block flags = (r, u)) (hr : ∀ fault, r ≠ .error (.engine fault)) :
    s.attemptAll params verify flags (block :: blocks) =
      ⟨s, block⟩ :: u.attemptAll params verify flags blocks := by
  rw [attemptAll, h]
  rcases r with (violation | fault) | isTip
  · rfl
  · exact absurd rfl (hr fault)
  · rfl

theorem attemptOrphans_cons_of_error {parent : Digest} {fault : EngineFault}
    (h : s.acceptAll params verify flags [] (pool.takeChildren parent now).1 = (.error fault, u)) :
    s.attemptOrphans params verify flags now pool (parent :: parents) =
      s.attemptAll params verify flags (pool.takeChildren parent now).1 := by
  rw [attemptOrphans]
  split
  · exact List.append_nil _
  · next h' => cases h.symm.trans h'

theorem attemptOrphans_cons_of_ok {parent : Digest}
    (h : s.acceptAll params verify flags [] (pool.takeChildren parent now).1 = (.ok accepted, u)) :
    s.attemptOrphans params verify flags now pool (parent :: parents) =
      s.attemptAll params verify flags (pool.takeChildren parent now).1 ++
        u.attemptOrphans params verify flags now (pool.takeChildren parent now).2
          (accepted ++ parents) := by
  rw [attemptOrphans]
  split
  · next h' => cases h.symm.trans h'
  · next h' =>
    obtain ⟨heq, rfl⟩ := Prod.mk.inj (h.symm.trans h')
    obtain rfl := Except.ok.inj heq
    rfl

/-! ## Nothing else happens -/

theorem Linked.append {as bs : List (Attempt σ)} (h : Linked params verify flags s as u)
    (h' : Linked params verify flags u bs s') : Linked params verify flags s (as ++ bs) s' := by
  induction h with
  | nil s => exact h'
  | cons first _ ih => exact .cons first (ih h')

theorem attemptAll_linked {r : Except EngineFault (List Digest)}
    (h : acceptAll params verify flags s accepted blocks = (r, s')) :
    Linked params verify flags s (s.attemptAll params verify flags blocks) s' := by
  induction blocks generalizing s accepted with
  | nil =>
    obtain ⟨-, rfl⟩ := Prod.mk.inj h
    exact .nil s
  | cons block blocks ih =>
    rw [acceptAll] at h
    rw [attemptAll]
    rcases haccept : s.accept params verify block flags with ⟨r', u⟩
    rw [haccept] at h
    rcases r' with (violation | fault) | isTip
    · exact .cons haccept (ih h)
    · obtain ⟨-, rfl⟩ := Prod.mk.inj h
      exact .cons haccept (.nil _)
    · exact .cons haccept (ih h)

theorem attemptOrphans_linked {r : Except EngineFault Unit}
    (h : s.acceptOrphans params verify flags now pool parents = (r, s', pool')) :
    Linked params verify flags s (s.attemptOrphans params verify flags now pool parents) s' := by
  fun_induction ChainState.acceptOrphans params verify flags now s pool parents with
  | case1 s pool =>
    obtain ⟨-, rfl, -⟩ := h
    rw [attemptOrphans]
    exact .nil _
  | case2 s pool parent parents taken fault u haccept =>
    obtain ⟨-, rfl, -⟩ := h
    rw [attemptOrphans_cons_of_error haccept]
    exact attemptAll_linked haccept
  | case3 s pool parent parents taken accepted u haccept ih =>
    rw [attemptOrphans_cons_of_ok haccept]
    exact (attemptAll_linked haccept).append (ih h)

/-- Each attempt is made on a chain that steps lead to, with a block that can be added there. -/
theorem Linked.steps [LawfulChainStore σ] {P : Block → Prop} {attempts : List (Attempt σ)}
    (h : Linked params verify flags s attempts s')
    (hw : Waiting P s.tree (attempts.map (·.block))) : ∀ a ∈ attempts,
      Steps P params verify flags s a.state ∧ P a.block ∧
        a.state.tree.find? a.block.hash = none := by
  induction h with
  | nil => exact fun a ha => nomatch ha
  | cons first rest ih =>
    have hP := hw.holds _ (List.mem_cons_self ..)
    have hnew := hw.unknown _ (List.mem_cons_self ..)
    intro a ha
    rcases List.mem_cons.1 ha with rfl | ha
    · exact ⟨.refl, hP, hnew⟩
    · obtain ⟨hsteps, hrest⟩ := ih (hw.accept first) a ha
      exact ⟨.head (accept_step hP hnew first) hsteps, hrest⟩

/-! ## Nothing is tried twice -/

theorem attemptAll_sublist (s : ChainState σ) (blocks : List Block) :
    ((s.attemptAll params verify flags blocks).map (·.block)).Sublist blocks := by
  induction blocks generalizing s with
  | nil => exact List.Sublist.refl _
  | cons block blocks ih =>
    rw [attemptAll, List.map_cons]
    refine List.Sublist.cons_cons _ ?_
    split
    · exact List.nil_sublist _
    · exact ih _

theorem attemptOrphans_subperm (s : ChainState σ) (pool : OrphanPool) (parents : List Digest) :
    ((s.attemptOrphans params verify flags now pool parents).map (·.block)).Subperm
      pool.blocks := by
  fun_induction ChainState.acceptOrphans params verify flags now s pool parents with
  | case1 s pool =>
    rw [attemptOrphans]
    exact List.nil_subperm
  | case2 s pool parent parents taken fault u haccept =>
    obtain ⟨children, hsub, hperm⟩ := pool.blocks_takeChildren parent now
    rw [attemptOrphans_cons_of_error haccept]
    refine ((attemptAll_sublist s taken.1).trans hsub).subperm.trans ?_
    exact (List.sublist_append_left children _).subperm.trans hperm.subperm
  | case3 s pool parent parents taken accepted u haccept ih =>
    obtain ⟨children, hsub, hperm⟩ := pool.blocks_takeChildren parent now
    rw [attemptOrphans_cons_of_ok haccept, List.map_append]
    refine List.Subperm.trans ?_ hperm.subperm
    exact ((attemptAll_sublist s taken.1).trans hsub).subperm.append ih

/-! ## Nothing is passed over -/

/-- All that waited for a parent have left the pool. Those that had not expired were tried. -/
def Released (now : Instant) (pool pool' : OrphanPool) (attempts : List (Attempt σ))
    (parent : Digest) : Prop :=
  ∀ o ∈ pool.held, o.parent = parent →
    o ∉ pool'.held ∧ (o.isExpired now = false → ∃ a ∈ attempts, a.block = o.block)

/-- If nothing fails all blocks are tried, and those that are accepted are reported. -/
theorem of_acceptAll (h : acceptAll params verify flags s accepted blocks = (.ok accepted', s')) :
    (s.attemptAll params verify flags blocks).map (·.block) = blocks ∧ accepted ⊆ accepted' ∧
      ∀ a ∈ s.attemptAll params verify flags blocks, a.Accepted params verify flags →
        a.block.hash ∈ accepted' := by
  induction blocks generalizing s accepted with
  | nil =>
    obtain ⟨heq, -⟩ := Prod.mk.inj h
    obtain rfl := Except.ok.inj heq
    exact ⟨rfl, List.Subset.refl _, List.forall_mem_nil _⟩
  | cons block blocks ih =>
    rw [acceptAll] at h
    rcases haccept : s.accept params verify block flags with ⟨r, u⟩
    rw [haccept] at h
    rcases r with (violation | fault) | isTip
    · obtain ⟨hmap, hsub, hmem⟩ := ih h
      rw [attemptAll_cons_of_accept haccept fun _ hr => by cases hr]
      refine ⟨congrArg (block :: ·) hmap, hsub, fun a ha hok => ?_⟩
      rcases List.mem_cons.1 ha with rfl | ha
      · rw [Attempt.Accepted, haccept] at hok
        cases hok
      · exact hmem a ha hok
    · cases h
    · obtain ⟨hmap, hsub, hmem⟩ := ih h
      rw [attemptAll_cons_of_accept haccept fun _ hr => by cases hr]
      refine ⟨congrArg (block :: ·) hmap, fun d hd => hsub (List.mem_cons_of_mem _ hd), ?_⟩
      intro a ha hok
      rcases List.mem_cons.1 ha with rfl | ha
      · exact hsub (List.mem_cons_self ..)
      · exact hmem a ha hok

/-- The orphans of the given blocks are released, and those of all that are accepted then. -/
theorem released_of_acceptOrphans [LawfulChainStore σ]
    (h : s.acceptOrphans params verify flags now pool parents = (.ok (), s', pool'))
    {parent : Digest} (hparent : parent ∈ parents ∨
      ∃ a ∈ s.attemptOrphans params verify flags now pool parents,
        a.Accepted params verify flags ∧ a.block.hash = parent) :
    Released now pool pool' (s.attemptOrphans params verify flags now pool parents) parent := by
  fun_induction ChainState.acceptOrphans params verify flags now s pool parents with
  | case1 s pool =>
    rw [attemptOrphans] at hparent
    rcases hparent with hmem | ⟨a, ha, -⟩
    · cases hmem
    · cases ha
  | case2 => cases h
  | case3 s pool first parents taken accepted u haccept ih =>
    obtain ⟨hall, -, haccepted⟩ := of_acceptAll haccept
    obtain ⟨-, hsub⟩ := grows_of_acceptOrphans h
    rw [attemptOrphans_cons_of_ok haccept] at hparent ⊢
    intro o ho heq
    by_cases hfirst : o.parent = first
    · -- it is taken out now
      refine ⟨fun hin => ?_, fun hlasts => ?_⟩
      · have hkept := hsub hin
        rw [OrphanPool.held_takeChildren, List.mem_filter] at hkept
        simp [hfirst] at hkept
      · have hin : o.block ∈ taken.1 := OrphanPool.mem_takeChildren.2 ⟨o, ho, hfirst, hlasts, rfl⟩
        rw [← hall] at hin
        obtain ⟨a, ha, hblock⟩ := List.mem_map.1 hin
        exact ⟨a, List.mem_append_left _ ha, hblock⟩
    · have hlater : parent ∈ accepted ++ parents ∨
          ∃ a ∈ u.attemptOrphans params verify flags now taken.2 (accepted ++ parents),
            a.Accepted params verify flags ∧ a.block.hash = parent := by
        rcases hparent with hmem | ⟨a, ha, hok, hhash⟩
        · rcases List.mem_cons.1 hmem with rfl | hmem
          · exact absurd heq hfirst
          · exact Or.inl (List.mem_append_right _ hmem)
        · rcases List.mem_append.1 ha with ha | ha
          · exact Or.inl (List.mem_append_left _ (hhash ▸ haccepted a ha hok))
          · exact Or.inr ⟨a, ha, hok, hhash⟩
      have hkept : o ∈ taken.2.held := by
        rw [OrphanPool.held_takeChildren, List.mem_filter]
        exact ⟨ho, by simpa using hfirst⟩
      obtain ⟨hgone, htried⟩ := ih h hlater o hkept heq
      refine ⟨hgone, fun hlasts => ?_⟩
      obtain ⟨a, ha, hblock⟩ := htried hlasts
      exact ⟨a, List.mem_append_right _ ha, hblock⟩

end ChainState

/-! ## Calls -/

namespace Chain

variable {c c' : Chain σ} {block : Block}

/-- The attempts of a call. -/
def attempts (c : Chain σ) (block : Block) (flags : AddFlags) (now : Instant) : List (Attempt σ) :=
  match c.checkNew block flags now with
  | .error _ => []
  | .ok () =>
    if c.tree.contains block.header.previous then
      ⟨c.toChainState, block⟩ ::
        match c.accept c.params c.verify block flags with
        | (.error _, _) => []
        | (.ok _, s) => s.attemptOrphans c.params c.verify flags now c.orphans [block.hash]
    else []

/-- How a call goes: what it answers, which chain it leads to, and what it attempts. -/
inductive Proceeds (c : Chain σ) (block : Block) (flags : AddFlags) (now : Instant) :
    Except EngineFault Outcome → Chain σ → List (Attempt σ) → Prop
  /-- the block is rejected at once -/
  | refused {violation : Violation} (invalid : c.checkNew block flags now = .error violation) :
      Proceeds c block flags now (.ok (.rejected violation)) c []
  /-- its parent is not known, and it waits -/
  | held (new : c.checkNew block flags now = .ok ())
      (unknown : c.tree.contains block.header.previous = false) :
      Proceeds c block flags now (.ok .orphaned)
        { c with orphans := c.orphans.add block now } []
  /-- it breaks a rule under its parent -/
  | broken {violation : Violation} {s : ChainState σ} (new : c.checkNew block flags now = .ok ())
      (rejected : c.accept c.params c.verify block flags = (.error (.rule violation), s)) :
      Proceeds c block flags now (.ok (.rejected violation)) { c with toChainState := s }
        [⟨c.toChainState, block⟩]
  /-- the engine fails -/
  | failed {fault : EngineFault} {s : ChainState σ} (new : c.checkNew block flags now = .ok ())
      (failed : c.accept c.params c.verify block flags = (.error (.engine fault), s)) :
      Proceeds c block flags now (.error fault) { c with toChainState := s }
        [⟨c.toChainState, block⟩]
  /-- it is added, and after it the orphans that descend from it -/
  | added {isTip : Bool} {s s' : ChainState σ} {orphans : OrphanPool} {r : Except EngineFault Unit}
      (new : c.checkNew block flags now = .ok ())
      (accepted : c.accept c.params c.verify block flags = (.ok isTip, s))
      (released : s.acceptOrphans c.params c.verify flags now c.orphans [block.hash] =
        (r, s', orphans)) :
      Proceeds c block flags now (r.map fun _ => .accepted isTip)
        { c with toChainState := s', orphans }
        (⟨c.toChainState, block⟩ ::
          s.attemptOrphans c.params c.verify flags now c.orphans [block.hash])

theorem proceeds_of_process {r : Except EngineFault Outcome}
    (h : c.process block flags now = (r, c')) :
    c.Proceeds block flags now r c' (c.attempts block flags now) := by
  rw [process] at h
  rw [attempts]
  rcases hnew : c.checkNew block flags now with violation | _
  · rw [hnew] at h
    obtain ⟨rfl, rfl⟩ := Prod.mk.inj h
    exact .refused hnew
  rw [hnew] at h
  dsimp only at h ⊢
  split at h
  · next hparent =>
    rw [if_pos hparent]
    rcases haccept : c.accept c.params c.verify block flags with ⟨(violation | fault) | isTip, s⟩
    · rw [haccept] at h
      obtain ⟨rfl, rfl⟩ := Prod.mk.inj h
      exact .broken hnew haccept
    · rw [haccept] at h
      obtain ⟨rfl, rfl⟩ := Prod.mk.inj h
      exact .failed hnew haccept
    · rw [haccept] at h
      dsimp only at h ⊢
      rcases horphans : s.acceptOrphans c.params c.verify flags now c.orphans [block.hash] with
        ⟨fault | _, s', orphans⟩
      · rw [horphans] at h
        obtain ⟨rfl, rfl⟩ := Prod.mk.inj h
        exact .added hnew haccept horphans
      · rw [horphans] at h
        obtain ⟨rfl, rfl⟩ := Prod.mk.inj h
        exact .added hnew haccept horphans
  · next hparent =>
    rw [if_neg hparent]
    obtain ⟨rfl, rfl⟩ := Prod.mk.inj h
    exact .held hnew (Bool.not_eq_true _ ▸ hparent)

/-- A call changes a chain by its attempts only. -/
theorem attempts_linked (c : Chain σ) (block : Block) (flags : AddFlags) (now : Instant) :
    ChainState.Linked c.params c.verify flags c.toChainState (c.attempts block flags now)
      (c.process block flags now).2.toChainState := by
  rcases hprocess : c.process block flags now with ⟨r, c'⟩
  have hproceeds := proceeds_of_process hprocess
  generalize c.attempts block flags now = attempts at hproceeds ⊢
  cases hproceeds with
  | refused invalid => exact .nil _
  | held new unknown => exact .nil _
  | broken new rejected => exact .cons rejected (.nil _)
  | failed new failed => exact .cons failed (.nil _)
  | added new accepted released => exact .cons accepted (ChainState.attemptOrphans_linked released)

/-- A call tries its block and orphans, each at most once. -/
theorem attempts_subperm (c : Chain σ) (block : Block) (flags : AddFlags) (now : Instant) :
    ((c.attempts block flags now).map (·.block)).Subperm (block :: c.orphans.blocks) := by
  rcases hprocess : c.process block flags now with ⟨r, c'⟩
  have hproceeds := proceeds_of_process hprocess
  generalize c.attempts block flags now = attempts at hproceeds ⊢
  cases hproceeds with
  | refused invalid => exact List.nil_subperm
  | held new unknown => exact List.nil_subperm
  | broken new rejected => exact (List.subperm_cons block).2 List.nil_subperm
  | failed new failed => exact (List.subperm_cons block).2 List.nil_subperm
  | added new accepted released =>
    exact (List.subperm_cons block).2 (ChainState.attemptOrphans_subperm ..)

/-- The blocks of a call can be added, each after those before it. -/
theorem Orderly.waiting_attempts {P : Block → Prop} (hc : c.Orderly P)
    (hP : block.check c.params now c.verify flags = .ok () → P block) :
    Waiting P c.tree ((c.attempts block flags now).map (·.block)) := by
  rcases hnew : c.checkNew block flags now with violation | _
  · rw [attempts, hnew]
    exact .nil
  · obtain ⟨-, -, hcheck⟩ := checkNew_eq_ok hnew
    obtain ⟨blocks, hperm, hsub⟩ := c.attempts_subperm block flags now
    exact ((hc.waiting_cons (hP hcheck) hnew).sublist hsub).perm hperm.symm

variable [LawfulChainStore σ] {allowed : AddFlags → Prop}

/-- Each attempt is made on a chain that steps lead to, with a block that can be added there. -/
theorem Reachable.of_mem_attempts (h : Reachable params verify allowed c) {a : Attempt σ}
    (ha : a ∈ c.attempts block flags now) :
    ChainState.Steps (Block.Checked params verify) params verify flags c.toChainState a.state ∧
      a.block.Checked params verify ∧ a.state.tree.find? a.block.hash = none := by
  obtain ⟨hc, rfl, rfl⟩ := h.orderly
  exact (c.attempts_linked block flags now).steps
    (hc.waiting_attempts fun hcheck => ⟨now, flags, hcheck⟩) a ha

/-- No two attempts of a call are made with one digest, and there are no more than blocks that were
known of. -/
theorem Reachable.attempts_bounded (h : Reachable params verify allowed c) (block : Block)
    (flags : AddFlags) (now : Instant) :
    ((c.attempts block flags now).map (·.block.hash)).Nodup ∧
      (c.attempts block flags now).length ≤ c.orphans.size + 1 := by
  obtain ⟨hc, rfl, rfl⟩ := h.orderly
  have hwaiting : Waiting (Block.Checked c.params c.verify) c.tree
      ((c.attempts block flags now).map (·.block)) :=
    hc.waiting_attempts fun hcheck => ⟨now, flags, hcheck⟩
  have hdistinct := hwaiting.distinct
  have hlen := (c.attempts_subperm block flags now).length_le
  rw [List.map_map] at hdistinct
  rw [List.length_map, List.length_cons, OrphanPool.blocks, List.length_map] at hlen
  exact ⟨hdistinct, hlen⟩

/-- If a call does not fail, the orphans of all that it accepts are released. -/
theorem released_of_process {outcome : Outcome}
    (h : c.process block flags now = (.ok outcome, c')) {a : Attempt σ}
    (ha : a ∈ c.attempts block flags now) (hok : a.Accepted c.params c.verify flags) :
    ChainState.Released now c.orphans c'.orphans (c.attempts block flags now) a.block.hash := by
  have hproceeds := proceeds_of_process h
  generalize c.attempts block flags now = attempts at hproceeds ha ⊢
  generalize hr : Except.ok outcome = r at hproceeds
  cases hproceeds with
  | refused invalid => cases ha
  | held new unknown => cases ha
  | broken new rejected =>
    -- nothing is tried after a block that is rejected
    obtain rfl := List.mem_singleton.1 ha
    rw [Attempt.Accepted, rejected] at hok
    cases hok
  | failed new failed => cases hr
  | @added isTip s s' orphans r new accepted released =>
    rcases r with fault | _
    · cases hr
    · have hparent : a.block.hash ∈ [block.hash] ∨
          ∃ b ∈ s.attemptOrphans c.params c.verify flags now c.orphans [block.hash],
            b.Accepted c.params c.verify flags ∧ b.block.hash = a.block.hash := by
        rcases List.mem_cons.1 ha with rfl | ha
        · exact Or.inl (List.mem_singleton_self _)
        · exact Or.inr ⟨a, ha, hok, rfl⟩
      intro o ho heq
      obtain ⟨hgone, htried⟩ := ChainState.released_of_acceptOrphans released hparent o ho heq
      refine ⟨hgone, fun hlasts => ?_⟩
      obtain ⟨b, hb, hblock⟩ := htried hlasts
      exact ⟨b, List.mem_cons_of_mem _ hb, hblock⟩

end Chain

end PermissionedLedger
