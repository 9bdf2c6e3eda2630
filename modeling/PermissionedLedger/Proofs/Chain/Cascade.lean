import Mathlib
import PermissionedLedger.Chain.Queries
import PermissionedLedger.Proofs.Chain.Attempts

/-!
# No orphan is stranded

An orphan waits for a block that is not known, or for one that is invalid and will stay so
(`BlockTree.Barren`). A block that is added otherwise releases its children before the call
ends, and so does each of them that is accepted.

During a call, blocks may wait for one that was accepted and is about to release its children
(`Clearing`). A failure of the engine can end a call at that point, and the children it did not
come to are stranded. So calls that fail are left out here (`Chain.Unfailing`).
-/

namespace PermissionedLedger

open BlockTree
open Time (Instant)

variable {σ : Type} [ChainStore σ] {params : Params} {verify : Verifier} {flags : AddFlags}

/-! ## Blocks that nothing can be added over -/

/-- A block is not known, or it is invalid. -/
def BlockTree.Barren (t : BlockTree) (hash : Digest) : Prop :=
  ∀ ⦃n⦄, t.findNode? hash = some n → n.status = .invalid

theorem BlockTree.barren_of_contains {t : BlockTree} {hash : Digest}
    (h : t.contains hash = false) : t.Barren hash := by
  intro n hn
  obtain ⟨i, hi, -⟩ := Option.bind_eq_some_iff.1 hn
  rw [contains, hi] at h
  cases h

namespace ChainState

variable [LawfulChainStore σ] {s s' : ChainState σ} {block : Block} {hash : Digest}

/-- Only a block that is added can have children then. -/
theorem barren_of_accept {r : Except Failure Bool} (hm : Mirror params s.tables s.tree)
    (h : s.accept params verify block flags = (r, s')) (hother : hash ≠ block.hash)
    (hbarren : s.tree.Barren hash) : s'.tree.Barren hash := by
  rcases accept_cases h with ⟨plan, hplan, -, htree, -⟩ | ⟨_, -, -, htree, -⟩
  · obtain ⟨p, parent, keys, hadmits, hselected⟩ := Plan.ofBlock_eq_ok hplan
    intro n hn
    obtain ⟨i, hi, hn⟩ := Option.bind_eq_some_iff.1 hn
    rw [htree, Plan.find?_of_ofBlock hplan, if_neg hother] at hi
    obtain ⟨m, hm', -⟩ := hm.coherent.find?_iff.1 hi
    have hinvalid := hbarren (Option.bind_eq_some_iff.2 ⟨i, hi, hm'⟩)
    obtain ⟨status, hstatus, hstays, -⟩ :=
      hselected.exists_status (Plan.node?_grown_of_some block p keys hm')
    rw [htree, hstatus] at hn
    rw [← Option.some.inj hn]
    exact hstays hinvalid
  · rw [htree]
    exact hbarren

/-- A block that breaks a rule has no children. -/
theorem barren_of_rejected {violation : Violation} (hm : Mirror params s.tables s.tree)
    (hs : s.tree.Settled params) (hb : block.WellFormed) (hnew : s.tree.find? block.hash = none)
    (h : s.accept params verify block flags = (.error (.rule violation), s')) :
    s'.tree.Barren block.hash := by
  intro n hn
  obtain ⟨i, hi, hn⟩ := Option.bind_eq_some_iff.1 hn
  rcases accept_error hm hs hb hnew h with hsame | ⟨_, -, -, failed, hcondemned⟩
  · rw [hsame.tree, hnew] at hi
    cases hi
  · rw [hcondemned.find, if_pos rfl] at hi
    obtain rfl := Option.some.inj hi
    obtain ⟨p, parent, keys, -, -, hadded, -⟩ := hcondemned.added
    rw [hadded] at hn
    rw [← Option.some.inj hn]

end ChainState

/-! ## Steps of a call -/

/-- A chain during a call: what is held waits for a block that nothing can be added over, or for one
that is about to release its children. -/
structure Clearing (params : Params) (verify : Verifier) (s : ChainState σ) (held : List Block)
    (todo : List Digest) (next : List Block) : Prop where
  /-- the tree shows what is stored -/
  mirror : Mirror params s.tables s.tree
  /-- validation is consistent -/
  settled : s.tree.Settled params
  /-- blocks outside of the tree can be added -/
  waiting : Waiting (Block.Checked params verify) s.tree (next ++ held)
  /-- no block is stranded -/
  released : ∀ b ∈ held, b.header.previous ∈ todo ∨ s.tree.Barren b.header.previous

namespace Clearing

variable {s s' : ChainState σ} {held next : List Block} {todo todo' parents : List Digest}
  {b : Block} {pool pool' : OrphanPool} {parent : Digest} {now : Instant}

/-- A parent releases its children. -/
theorem release (h : Clearing params verify s pool.blocks (parent :: parents) []) :
    Clearing params verify s (pool.takeChildren parent now).2.blocks parents
      (pool.takeChildren parent now).1 where
  mirror := h.mirror
  settled := h.settled
  waiting := by
    obtain ⟨children, hsub, hperm⟩ := pool.blocks_takeChildren parent now
    exact (h.waiting.perm hperm).sublist (hsub.append (List.Sublist.refl _))
  released := by
    intro c hc
    obtain ⟨o, ho, rfl⟩ := List.mem_map.1 hc
    rw [OrphanPool.held_takeChildren, List.mem_filter] at ho
    refine (h.released o.block (List.mem_map_of_mem ho.1)).imp_left fun htodo => ?_
    refine (List.mem_cons.1 htodo).resolve_left fun heq => ?_
    have hother := ho.2
    rw [Orphan.parent, heq] at hother
    simp at hother

variable [LawfulChainStore σ]

/-- The next block was tried. It is about to release its children, or has none. -/
theorem accept {r : Except Failure Bool} (h : Clearing params verify s held todo (b :: next))
    (haccept : s.accept params verify b flags = (r, s')) (hsub : todo ⊆ todo')
    (hb : b.hash ∈ todo' ∨ s'.tree.Barren b.hash) :
    Clearing params verify s' held todo' next := by
  have hchecked := h.waiting.holds b (List.mem_cons_self ..)
  have hnew := h.waiting.unknown b (List.mem_cons_self ..)
  have hplans : KeptByPlans params verify (fun _ => True) fun _ t _ => t.Settled params :=
    settled_keptByPlans
  have hsteps : ChainState.Steps (Block.Checked params verify) params verify flags s s' :=
    .single (ChainState.accept_step hchecked hnew haccept)
  obtain ⟨hm, hs⟩ := hsteps.keeps hplans trivial id h.mirror h.settled
  refine ⟨hm, hs, h.waiting.accept haccept, fun c hc => ?_⟩
  by_cases heq : c.header.previous = b.hash
  · rw [heq]
    exact hb
  · refine (h.released c hc).imp (fun htodo => hsub htodo) fun hbarren => ?_
    exact ChainState.barren_of_accept h.mirror haccept heq hbarren

theorem acceptAll {accepted accepted' : List Digest}
    (h : Clearing params verify s held (accepted ++ parents) next)
    (hr : ChainState.acceptAll params verify flags s accepted next = (.ok accepted', s')) :
    Clearing params verify s' held (accepted' ++ parents) [] := by
  induction next generalizing s accepted with
  | nil =>
    obtain ⟨heq, rfl⟩ := Prod.mk.inj hr
    obtain rfl := Except.ok.inj heq
    exact h
  | cons b next ih =>
    have hchecked := h.waiting.holds b (List.mem_cons_self ..)
    have hnew := h.waiting.unknown b (List.mem_cons_self ..)
    rw [ChainState.acceptAll] at hr
    rcases haccept : s.accept params verify b flags with ⟨(violation | fault) | isTip, u⟩
    · rw [haccept] at hr
      have hbarren :=
        ChainState.barren_of_rejected h.mirror h.settled hchecked.wellFormed hnew haccept
      exact ih (h.accept haccept (List.Subset.refl _) (Or.inr hbarren)) hr
    · rw [haccept] at hr
      cases hr
    · rw [haccept] at hr
      exact ih (h.accept haccept (List.subset_cons_self ..) (Or.inl (List.mem_cons_self ..))) hr

/-- When all parents have released their children, nothing is stranded. -/
theorem acceptOrphans (h : Clearing params verify s pool.blocks parents [])
    (hr : s.acceptOrphans params verify flags now pool parents = (.ok (), s', pool')) :
    Clearing params verify s' pool'.blocks [] [] := by
  fun_induction ChainState.acceptOrphans params verify flags now s pool parents with
  | case1 s pool =>
    obtain ⟨-, rfl, rfl⟩ := hr
    exact h
  | case2 => cases hr
  | case3 s pool parent parents taken accepted u haccept ih =>
    have hrelease : Clearing params verify s taken.2.blocks ([] ++ parents) taken.1 := h.release
    exact ih (hrelease.acceptAll haccept) hr

end Clearing

/-! ## Runs -/

namespace Chain

/-- The chains that are opened on an empty store, and that calls lead to of which none failed.
Restarts may come in between. -/
inductive Unfailing (params : Params) (verify : Verifier) : Chain σ → Prop
  | opened {store store' : σ} {capacity : Nat} {lifetime : Int} {c : Chain σ}
      (empty : ChainStore.tables store = {})
      (opens : openStore params verify (.ofLimits capacity lifetime) store = (.ok c, store')) :
      Unfailing params verify c
  | processed {c c' : Chain σ} {block : Block} {flags : AddFlags} {now : Instant}
      {outcome : Outcome} (reached : Unfailing params verify c)
      (answers : c.process block flags now = (.ok outcome, c')) : Unfailing params verify c'
  | restarted {c c' : Chain σ} {store' : σ} {capacity : Nat} {lifetime : Int}
      (reached : Unfailing params verify c)
      (opens : openStore params verify (.ofLimits capacity lifetime) c.store =
        (.ok c', store')) : Unfailing params verify c'

namespace Unfailing

variable {c : Chain σ}

theorem reachable (h : Unfailing params verify c) :
    Reachable params verify (fun _ => True) c := by
  induction h with
  | opened empty opens => exact .opened empty opens
  | @processed c c' block flags now outcome _ answers ih =>
    have hreached : Reachable params verify (fun _ => True) (c.process block flags now).2 :=
      .processed ih trivial
    rw [answers] at hreached
    exact hreached
  | restarted _ opens ih => exact .restarted ih opens

variable [LawfulChainStore σ]

/-- Between calls, all that is held waits for a block that nothing can be added over. -/
theorem clear (h : Unfailing params verify c) :
    ∀ b ∈ c.orphans.blocks, c.tree.Barren b.header.previous := by
  have hnone : ∀ {c : Chain σ} {store store' : σ} {capacity lifetime},
      openStore params verify (.ofLimits capacity lifetime) store = (.ok c, store') →
      ∀ b ∈ c.orphans.blocks, c.tree.Barren b.header.previous := by
    intro c store store' capacity lifetime hopen b hb
    obtain ⟨-, -, -, -, -, -, hpool⟩ := openStore_eq_ok hopen
    rw [hpool] at hb
    cases hb
  induction h with
  | opened empty opens => exact hnone opens
  | restarted _ opens _ => exact hnone opens
  | @processed c c' block flags now outcome reached answers ih =>
    obtain ⟨hc, rfl, rfl⟩ := reached.reachable.orderly
    have hcall : c.checkNew block flags now = .ok () →
        Clearing c.params c.verify c.toChainState c.orphans.blocks [] [block] := by
      intro hnew
      obtain ⟨-, -, hcheck⟩ := checkNew_eq_ok hnew
      exact ⟨reached.reachable.mirror, reached.reachable.settled,
        hc.waiting_cons ⟨now, flags, hcheck⟩ hnew, fun b hb => Or.inr (ih b hb)⟩
    have hproceeds := proceeds_of_process answers
    generalize c.attempts block flags now = attempts at hproceeds
    generalize hr : Except.ok outcome = r at hproceeds
    cases hproceeds with
    | refused invalid => exact ih
    | held new unknown =>
      intro b hb
      obtain ⟨-, hpool, -⟩ := checkNew_eq_ok new
      obtain ⟨kept, hkept, hblocks⟩ := OrphanPool.blocks_add hpool now
      have hb : b ∈ kept ++ [block] := hblocks ▸ hb
      rcases List.mem_append.1 hb with hb | hb
      · exact ih b (hkept.subset hb)
      · rw [List.mem_singleton.1 hb]
        exact barren_of_contains unknown
    | @broken violation s new rejected =>
      obtain ⟨hunknown, -, hcheck⟩ := checkNew_eq_ok new
      have hbarren := ChainState.barren_of_rejected reached.reachable.mirror
        reached.reachable.settled (Block.wellFormed_of_check hcheck) hunknown rejected
      have hclear := (hcall new).accept rejected (List.Subset.refl _) (Or.inr hbarren)
      exact fun b hb => (hclear.released b hb).resolve_left nofun
    | failed new failed => cases hr
    | @added isTip s s' orphans r new accepted released =>
      rcases r with fault | _
      · cases hr
      · have hadded := (hcall new).accept accepted (List.nil_subset _)
          (Or.inl (List.mem_singleton_self block.hash))
        have hclear := hadded.acceptOrphans released
        exact fun b hb => (hclear.released b hb).resolve_left nofun

/-- If no call has failed, no block is both known and held, and what is held waits for a block that
is not known or invalid. A call tries no block twice, and if it does not fail either, no child of a
block that it accepts is held when it ends. Those that had not expired were tried. -/
theorem no_orphan_stranded (h : Unfailing params verify c) :
    (∀ hash, c.tree.contains hash = true → c.hasOrphan hash = false) ∧
    (∀ o ∈ c.orphans.held, c.status? o.parent = none ∨ c.status? o.parent = some .invalid) ∧
    ∀ block flags now, ((c.attempts block flags now).map (·.block.hash)).Nodup ∧
      (c.attempts block flags now).length ≤ c.orphans.size + 1 ∧
      ∀ outcome c', c.process block flags now = (.ok outcome, c') →
        ∀ a ∈ c.attempts block flags now, a.Accepted params verify flags →
        ∀ o ∈ c.orphans.held, o.parent = a.block.hash → o ∉ c'.orphans.held ∧
          (o.isExpired now = false → ∃ a' ∈ c.attempts block flags now, a'.block = o.block) := by
  obtain ⟨hc, rfl, rfl⟩ := h.reachable.orderly
  refine ⟨fun hash hknown => ?_, fun o ho => ?_, fun block flags now => ?_⟩
  · rw [hasOrphan, ← Bool.not_eq_true, OrphanPool.contains_iff hc.named]
    intro hheld
    obtain ⟨b, hb, rfl⟩ := List.mem_map.1 hheld
    rw [BlockTree.contains, hc.waiting.unknown b hb] at hknown
    cases hknown
  · have hbarren := h.clear o.block (List.mem_map_of_mem ho)
    rw [status?, Orphan.parent]
    rcases hn : c.tree.findNode? o.block.header.previous with _ | n
    · exact Or.inl rfl
    · exact Or.inr (congrArg some (hbarren hn))
  · obtain ⟨hnodup, hlen⟩ := h.reachable.attempts_bounded block flags now
    exact ⟨hnodup, hlen, fun outcome c' hanswers a ha hok o ho heq =>
      released_of_process hanswers ha hok o ho heq⟩

end Unfailing

end Chain

/-! ## A sample cascade -/

namespace Sample

/-- The second block waits for the first, which is not known. When that is submitted, both are tried
and accepted. -/
def cascades (c : Chain MemoryStore) : Bool :=
  match c.process second {} now with
  | (.ok _, d) =>
    d.hasOrphan second.hash &&
      match d.process first {} now with
      | (.ok _, _) =>
        (d.attempts first {} now).map (·.block.hash) = [first.hash, second.hash] &&
          (d.attempts first {} now).all fun a => decide (a.Accepted network trusting {})
      | _ => false
  | _ => false

theorem cascades_after_opening : (after? network now []).any cascades = true := by
  decide +kernel

end Sample

/-- In the sample the second block is held and not known, as the first one is not. When that comes,
it is tried after it and not held any more. -/
theorem Chain.no_orphan_stranded_after_parent : ∃ c c' : Chain MemoryStore,
    c.hasOrphan Sample.second.hash = true ∧ c.tree.contains Sample.second.hash = false ∧
    c' = (c.process Sample.first {} Sample.now).2 ∧
    (c.attempts Sample.first {} Sample.now).map (·.block.hash) =
      [Sample.first.hash, Sample.second.hash] ∧
    ∀ o ∈ c.orphans.held, (c.status? o.parent = none ∨ c.status? o.parent = some .invalid) ∧
      (o.parent = Sample.first.hash → o ∉ c'.orphans.held) := by
  obtain ⟨c, store, hopen, hcascades⟩ := Sample.exists_opened Sample.cascades_after_opening
  rw [Sample.cascades] at hcascades
  split at hcascades
  swap
  · cases hcascades
  next waits d hsecond =>
  obtain ⟨hheld, hcascades⟩ := Bool.and_eq_true_iff.1 hcascades
  split at hcascades
  swap
  · cases hcascades
  next outcome e hfirst =>
  simp only [Bool.and_eq_true, decide_eq_true_eq, List.all_eq_true] at hcascades
  obtain ⟨hblocks, haccepted⟩ := hcascades
  have hunfailing : d.Unfailing Sample.network Sample.trusting :=
    .processed (.opened rfl hopen) hsecond
  obtain ⟨hapart, hwaits, hcalls⟩ := hunfailing.no_orphan_stranded
  obtain ⟨-, -, hreleased⟩ := hcalls Sample.first {} Sample.now
  refine ⟨d, e, hheld, ?_, by rw [hfirst], hblocks, fun o ho => ⟨hwaits o ho, fun hparent => ?_⟩⟩
  · refine Bool.eq_false_iff.2 fun hknown => ?_
    rw [hapart _ hknown] at hheld
    cases hheld
  · have hin : Sample.first.hash ∈ (d.attempts Sample.first {} Sample.now).map (·.block.hash) := by
      rw [hblocks]
      exact List.mem_cons_self ..
    obtain ⟨a, ha, hhash⟩ := List.mem_map.1 hin
    exact (hreleased outcome e hfirst a ha (haccepted a ha) o ho (hparent.trans hhash.symm)).1

end PermissionedLedger
