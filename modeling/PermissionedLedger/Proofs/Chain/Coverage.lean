import Mathlib
import PermissionedLedger.Proofs.Chain.Grounds
import PermissionedLedger.Proofs.Chain.Progress

/-!
# No block is overlooked

A block may become part of the tree in another call than the one it was submitted with,
or in none. Between calls, every block that was submitted and passed its own checks is

* in the tree,
* refused under its parent (`Plan.Refused`), or
* held, and its parent is not known.

During a call there are also blocks that are about to be added, and parents whose
children have not been released yet (`Covered`). Every step of the call keeps this
(`Underway`), provided that the store is reliable and the pool never drops a block.
-/

namespace PermissionedLedger

open BlockTree Plan
open Time (Instant)

/-- The parent of a block is known, and the block may not be added there. -/
structure Plan.Refused (s : Setting) (t : BlockTree) (b : Block) : Prop where
  /-- the parent is known -/
  known : t.contains b.header.previous = true
  /-- the rules refuse the block -/
  refuses : ∀ ⦃p n keys⦄, ¬ Admits s t b {} p n keys

/-- Where a block is during a call. -/
inductive Covered (s : Setting) (t : BlockTree) (held : List Block) (todo : List Digest)
    (next : List Block) (b : Block) : Prop
  /-- it is in the tree -/
  | known (known : t.contains b.hash = true)
  /-- it was refused -/
  | refused (refused : Refused s t b)
  /-- it is about to be added -/
  | next (next : b ∈ next)
  /-- it waits until its parent is known, and released then -/
  | waits (waits : b ∈ held)
      (released : t.contains b.header.previous = true → b.header.previous ∈ todo)

/-! ## Plans -/

namespace Plan

variable {s : Setting} {t : BlockTree} {best : BestState} {block : Block} {flags : AddFlags}
  {plan : Plan} {p : Nat} {parent : TreeNode} {keys : KeySets}

/-- A block is known if it was before, or is that of the plan. -/
theorem Selected.contains_iff {b : Block} {pending : Batch} {id : Nat} {node : TreeNode}
    (h : Selected s (grown t b p keys) best id node block flags pending plan) (hash : Digest) :
    plan.tree.contains hash = true ↔ hash = b.hash ∨ t.contains hash = true := by
  rw [contains, contains, h.find?_eq, find?_grown]
  split
  · next heq => simp [heq]
  · next hne => simp [hne]

/-- What is refused stays refused. -/
theorem Refused.of_plan {b : Block} (h : Refused s t b) (hm : Mirror s.params s.tables t)
    (hnone : s.params.checkpoints = []) (hadds : Adds s t best block {} p parent keys plan) :
    Refused { s with tables := s.tables.writeAll plan.batch } plan.tree b where
  known := (hadds.selected.contains_iff _).2 (Or.inr h.known)
  refuses := by
    intro q n keys' hadmits'
    obtain ⟨q', hq'⟩ := Option.isSome_iff_exists.1 h.known
    have hne : b.header.previous ≠ block.hash := by
      intro heq
      rw [heq, hadds.unknown] at hq'
      cases hq'
    have hq : t.find? b.header.previous = some q := by
      rw [← hadmits'.found, hadds.selected.find?_eq, find?_grown, if_neg hne]
    obtain ⟨m, hm', -⟩ := hm.coherent.find?_iff.1 hq
    obtain ⟨status, hn, hinvalid, -⟩ :=
      hadds.selected.exists_status (node?_grown_of_some block p keys hm')
    obtain rfl := Option.some.inj (hadmits'.node.symm.trans hn)
    refine h.refuses ⟨hq, hm', fun hbad => hadmits'.usable (hinvalid hbad), ?_, hadmits'.keys⟩
    rw [← checkPlacement_of_plan hm hnone hadds (node?_lt hm')]
    exact hadmits'.placed

/-- The node of a block that is not accepted is invalid, where there are no checkpoints. -/
theorem Adds.invalid_of_error {violation : Violation}
    (hadds : Adds s t best block flags p parent keys plan) (hm : Mirror s.params s.tables t)
    (hnone : s.params.checkpoints = []) (herror : plan.verdict = .error violation) :
    ∃ n, plan.tree.node? t.size = some n ∧ n.status = .invalid := by
  obtain ⟨hb, hnew, hadmits, hplan⟩ := hadds
  have hgrown := hm.grown hb hnew hadmits
  cases hplan with
  | stored => cases herror
  | tooOld htip hnode better hfork hold =>
    rw [checkFork, latestCheckpoint?_of_nil hnone] at hold
    cases hold
  | @rejected tip fork failed tipNode view dropped violation htip hnode better hfork hdetach
      hbroken =>
    obtain ⟨hmem, -⟩ := Switch.mem_lineage_of_broken hgrown.coherent hgrown.path hfork hbroken
    refine ⟨_, node?_reject (lt_size_of_mem_lineage hmem) (node?_grown_size ..), ?_⟩
    rw [if_pos hmem]
  | switched => cases herror

end Plan

/-! ## Steps of a call -/

variable {σ : Type} [ChainStore σ] {params : Params} {verify : Verifier} {now : Instant}
  {P : Block → Prop}

/-- A chain during a call, where `P` holds of the blocks that matter. -/
structure Underway (P : Block → Prop) (params : Params) (verify : Verifier) (s : ChainState σ)
    (held : List Block) (todo : List Digest) (next : List Block) : Prop where
  /-- the tree shows what is stored -/
  mirror : Mirror params s.tables s.tree
  /-- and does not depend on its past -/
  grounded : Grounded params verify s.tables s.tree
  /-- there are no other blocks than these and genesis -/
  stored : ∀ ⦃hash : Digest⦄ ⦃b : Block⦄, s.tables.blocks[hash]? = some b →
    b = params.genesis ∨ P b
  /-- blocks outside of the tree can be added -/
  waiting : Waiting P s.tree (next ++ held)
  /-- the next ones can be added now -/
  reached : ∀ b ∈ next, s.tree.contains b.header.previous = true
  /-- parents that release their children are known -/
  known : ∀ hash ∈ todo, s.tree.contains hash = true
  /-- no block is overlooked -/
  covered : ∀ ⦃b⦄, P b → Covered ⟨params, verify, s.tables⟩ s.tree held todo next b

namespace Underway

variable {s : ChainState σ} {held next : List Block} {todo parents : List Digest}
  {b : Block} {pool : OrphanPool} {parent : Digest}

/-- The next block was refused. -/
theorem refuse (h : Underway P params verify s held todo (b :: next))
    (hrefused : Refused ⟨params, verify, s.tables⟩ s.tree b) :
    Underway P params verify s held todo next where
  mirror := h.mirror
  grounded := h.grounded
  stored := h.stored
  waiting := h.waiting.sublist (List.sublist_cons_self ..)
  reached := fun c hc => h.reached c (List.mem_cons_of_mem _ hc)
  known := h.known
  covered := by
    intro c hc
    cases h.covered hc with
    | known known => exact .known known
    | refused refused => exact .refused refused
    | next hnext =>
      rcases List.mem_cons.1 hnext with rfl | hnext
      · exact .refused hrefused
      · exact .next hnext
    | waits hheld released => exact .waits hheld released

/-- The children of an invalid node are refused, so that they need not be released. -/
theorem skip {i : Nat} {n : TreeNode} (h : Underway P params verify s held (parent :: todo) next)
    (hfound : s.tree.find? parent = some i) (hn : s.tree.node? i = some n)
    (hinvalid : n.status = .invalid) : Underway P params verify s held todo next where
  mirror := h.mirror
  grounded := h.grounded
  stored := h.stored
  waiting := h.waiting
  reached := h.reached
  known := fun hash hin => h.known hash (List.mem_cons_of_mem _ hin)
  covered := by
    intro c hc
    cases h.covered hc with
    | known known => exact .known known
    | refused refused => exact .refused refused
    | next hnext => exact .next hnext
    | waits hheld released =>
      by_cases hchild : c.header.previous = parent
      · refine .refused ⟨hchild ▸ h.known _ (List.mem_cons_self ..), fun p m keys hadmits => ?_⟩
        have hp := hadmits.found
        rw [hchild, hfound] at hp
        obtain rfl := Option.some.inj hp
        obtain rfl := Option.some.inj (hadmits.node.symm.trans hn)
        exact hadmits.usable hinvalid
      · refine .waits hheld fun hknown => ?_
        rcases List.mem_cons.1 (released hknown) with heq | hin
        · exact absurd heq hchild
        · exact hin

/-- The plan for the next block is carried out. Its children are to be released. -/
theorem extend {best : BestState} {plan : Plan} {p : Nat} {node : TreeNode} {keys : KeySets}
    {s' : ChainState σ} (h : Underway P params verify s held todo (b :: next))
    (hP : ∀ {b}, P b → b.Checked params verify) (hnone : params.checkpoints = [])
    (hadds : Adds ⟨params, verify, s.tables⟩ s.tree best b {} p node keys plan)
    (htables : s'.tables = s.tables.writeAll plan.batch) (htree : s'.tree = plan.tree) :
    Underway P params verify s' held (b.hash :: todo) next := by
  have hb := h.waiting.holds b (List.mem_cons_self ..)
  have hcontains : ∀ hash, s'.tree.contains hash = true ↔
      hash = b.hash ∨ s.tree.contains hash = true := by
    intro hash
    rw [htree]
    exact hadds.selected.contains_iff hash
  have hdistinct := List.nodup_cons.1 h.waiting.distinct
  refine ⟨?_, ?_, ?_, ⟨?_, ?_, hdistinct.2⟩, ?_, ?_, ?_⟩
  · rw [htables, htree]
    exact h.mirror.of_plan hadds
  · rw [htables, htree]
    exact grounded_keptByPlans hnone rfl h.mirror h.grounded (hP hb) hadds
  · intro hash c hc
    rw [htables, hadds.getElem?_blocks] at hc
    split at hc
    · exact Or.inr (Option.some.inj hc ▸ hb)
    · exact h.stored hc
  · exact fun c hc => h.waiting.holds c (List.mem_cons_of_mem _ hc)
  · intro c hc
    have hne : c.hash ≠ b.hash := fun heq => hdistinct.1 (List.mem_map.2 ⟨c, hc, heq⟩)
    rw [htree, hadds.selected.find?_eq, find?_grown, if_neg hne]
    exact h.waiting.unknown c (List.mem_cons_of_mem _ hc)
  · exact fun c hc => (hcontains _).2 (Or.inr (h.reached c (List.mem_cons_of_mem _ hc)))
  · intro hash hin
    rcases List.mem_cons.1 hin with rfl | hin
    · exact (hcontains _).2 (Or.inl rfl)
    · exact (hcontains _).2 (Or.inr (h.known hash hin))
  · intro c hc
    cases h.covered hc with
    | known known => exact .known ((hcontains _).2 (Or.inr known))
    | refused refused =>
      rw [htables, htree]
      exact .refused (refused.of_plan h.mirror hnone hadds)
    | next hnext =>
      rcases List.mem_cons.1 hnext with rfl | hnext
      · exact .known ((hcontains _).2 (Or.inl rfl))
      · exact .next hnext
    | waits hheld released =>
      refine .waits hheld fun hknown => ?_
      rcases (hcontains _).1 hknown with heq | hknown
      · exact heq ▸ List.mem_cons_self ..
      · exact List.mem_cons_of_mem _ (released hknown)

/-- A parent releases its children. -/
theorem release (h : Underway P params verify s pool.blocks (parent :: parents) [])
    (hfresh : pool.Fresh now) :
    Underway P params verify s (pool.takeChildren parent now).2.blocks parents
      (pool.takeChildren parent now).1 := by
  obtain ⟨htaken, hkept⟩ := OrphanPool.takeChildren_of_fresh hfresh parent
  rw [htaken, hkept]
  refine ⟨h.mirror, h.grounded, h.stored, ?_, ?_, ?_, ?_⟩
  · refine h.waiting.perm ?_
    rw [List.nil_append]
    simpa using List.filter_append_perm (fun b : Block => decide (b.header.previous = parent))
      pool.blocks
  · intro c hc
    have hchild := of_decide_eq_true (List.mem_filter.1 hc).2
    exact hchild ▸ h.known _ (List.mem_cons_self ..)
  · exact fun hash hin => h.known hash (List.mem_cons_of_mem _ hin)
  · intro c hc
    cases h.covered hc with
    | known known => exact .known known
    | refused refused => exact .refused refused
    | next hnext => cases hnext
    | waits hheld released =>
      by_cases hchild : c.header.previous = parent
      · exact .next (List.mem_filter.2 ⟨hheld, decide_eq_true hchild⟩)
      · refine .waits (List.mem_filter.2 ⟨hheld, decide_eq_true hchild⟩) fun hknown => ?_
        rcases List.mem_cons.1 (released hknown) with heq | hin
        · exact absurd heq hchild
        · exact hin

section Accepting

variable [ReliableChainStore σ] (hP : ∀ {b}, P b → b.Checked params verify)
  (hnone : params.checkpoints = [])

include hP hnone

/-- The next block is accepted, or breaks a rule. -/
theorem accept (h : Underway P params verify s held todo (b :: next)) :
    ∃ s', (∃ isTip, s.accept params verify b {} = (.ok isTip, s') ∧
        Underway P params verify s' held (b.hash :: todo) next) ∨
      ∃ violation, s.accept params verify b {} = (.error (.rule violation), s') ∧
        Underway P params verify s' held todo next := by
  have hwf := (hP (h.waiting.holds b (List.mem_cons_self ..))).wellFormed
  have hnew := h.waiting.unknown b (List.mem_cons_self ..)
  obtain ⟨p, hfound⟩ := Option.isSome_iff_exists.1 (h.reached b (List.mem_cons_self ..))
  obtain ⟨node, hnode, -⟩ := h.mirror.coherent.find?_iff.1 hfound
  have hjournaled := h.grounded.accurate.journaled h.mirror
  rcases ChainState.accept_of_reliable {} h.mirror hjournaled hwf hnew hfound hnode with
    ⟨violation, hkeys, haccept⟩ | ⟨keys, plan, s', hadds, haccept, htables, htree⟩
  · refine ⟨s, Or.inr ⟨violation, haccept, h.refuse ⟨h.reached b (List.mem_cons_self ..), ?_⟩⟩⟩
    intro q m keys hadmits
    obtain rfl := Option.some.inj (hadmits.found.symm.trans hfound)
    obtain rfl := Option.some.inj (hadmits.node.symm.trans hnode)
    cases hadmits.keysAfter_eq.symm.trans hkeys
  · have hextend := h.extend hP hnone hadds htables htree
    rcases hverdict : plan.verdict with violation | isTip
    · rw [hverdict] at haccept
      obtain ⟨n, hn, hinvalid⟩ := hadds.invalid_of_error h.mirror hnone hverdict
      refine ⟨s', Or.inr ⟨violation, haccept, hextend.skip ?_ (htree ▸ hn) hinvalid⟩⟩
      rw [htree, hadds.selected.find?_eq, find?_grown, if_pos rfl]
    · rw [hverdict] at haccept
      exact ⟨s', Or.inl ⟨isTip, haccept, hextend⟩⟩

/-- All next blocks are tried. The children of those that are accepted are to be released. -/
theorem acceptAll {accepted : List Digest}
    (h : Underway P params verify s held (accepted ++ parents) next) :
    ∃ accepted' s', ChainState.acceptAll params verify {} s accepted next = (.ok accepted', s') ∧
      Underway P params verify s' held (accepted' ++ parents) [] := by
  induction next generalizing s accepted with
  | nil => exact ⟨accepted, s, rfl, h⟩
  | cons b next ih =>
    obtain ⟨s', ⟨isTip, haccept, h'⟩ | ⟨violation, haccept, h'⟩⟩ := h.accept hP hnone
    · rw [ChainState.acceptAll, haccept]
      exact ih h'
    · rw [ChainState.acceptAll, haccept]
      exact ih h'

/-- All descendants that are held are released. -/
theorem acceptOrphans (h : Underway P params verify s pool.blocks parents [])
    (hn : pool.Named) (hfresh : pool.Fresh now) :
    ∃ s' pool', s.acceptOrphans params verify {} now pool parents = (.ok (), s', pool') ∧
      Underway P params verify s' pool'.blocks [] [] ∧ pool'.Named ∧ pool'.Fresh now ∧
      pool'.capacity = pool.capacity ∧ pool'.lifetime = pool.lifetime := by
  fun_induction ChainState.acceptOrphans params verify {} now s pool parents with
  | case1 s pool => exact ⟨s, pool, rfl, h, hn, hfresh, rfl, rfl⟩
  | case2 s pool parent parents taken fault u haccept =>
    have hrelease : Underway P params verify s taken.2.blocks ([] ++ parents) taken.1 :=
      h.release hfresh
    obtain ⟨accepted, s', haccept', -⟩ := hrelease.acceptAll hP hnone
    cases haccept.symm.trans haccept'
  | case3 s pool parent parents taken accepted u haccept ih =>
    have hrelease : Underway P params verify s taken.2.blocks ([] ++ parents) taken.1 :=
      h.release hfresh
    obtain ⟨accepted', s', haccept', h'⟩ := hrelease.acceptAll hP hnone
    obtain ⟨heq, rfl⟩ := Prod.mk.inj (haccept.symm.trans haccept')
    obtain rfl := Except.ok.inj heq
    exact ih h' hn.takeChildren hfresh.takeChildren

end Accepting

end Underway

/-! ## Calls -/

/-- A block is one of some, and passes its own checks at a given time. -/
def Offered (params : Params) (verify : Verifier) (now : Instant) (blocks : List Block)
    (b : Block) : Prop :=
  b ∈ blocks ∧ b.check params now verify {} = .ok ()

namespace Offered

variable {blocks : List Block} {b c : Block}

theorem checked (h : Offered params verify now blocks b) : b.Checked params verify :=
  ⟨now, {}, h.2⟩

theorem append (h : Offered params verify now blocks b) (c : Block) :
    Offered params verify now (blocks ++ [c]) b :=
  ⟨List.mem_append_left _ h.1, h.2⟩

end Offered

namespace Chain

/-- A chain between calls, to which some blocks were submitted, all at one time. -/
structure AtRest (params : Params) (verify : Verifier) (now : Instant) (capacity : Nat)
    (blocks : List Block) (c : Chain σ) : Prop where
  /-- the network -/
  params_eq : c.params = params
  /-- what is a valid signature -/
  verify_eq : c.verify = verify
  /-- orphans are held under their digests -/
  named : c.orphans.Named
  /-- none has expired -/
  fresh : c.orphans.Fresh now
  /-- none expires when it is added -/
  lasting : now < now.addSeconds c.orphans.lifetime
  /-- so many can be held -/
  capacity_le : capacity ≤ c.orphans.capacity
  /-- no block is overlooked -/
  underway : Underway (Offered params verify now blocks) params verify c.toChainState
    c.orphans.blocks [] []

namespace AtRest

variable {capacity : Nat} {blocks : List Block} {c : Chain σ} {b : Block}

/-- Where the parent of a block is known, the block is in the tree or was refused. -/
theorem contains_or_refused (h : c.AtRest params verify now capacity blocks)
    (hb : Offered params verify now blocks b) (hparent : c.tree.contains b.header.previous = true) :
    c.tree.contains b.hash = true ∨ Refused ⟨params, verify, c.tables⟩ c.tree b := by
  cases h.underway.covered hb with
  | known known => exact Or.inl known
  | refused refused => exact Or.inr refused
  | next hnext => cases hnext
  | waits hheld released => cases released hparent

/-- There is room for another block as long as fewer were submitted than fit. -/
theorem size_lt (h : c.AtRest params verify now capacity blocks) (hroom : blocks.length < capacity) :
    c.orphans.size < c.orphans.capacity := by
  have hnodup : c.orphans.blocks.Nodup := List.Nodup.of_map _ h.underway.waiting.distinct
  have hsub : c.orphans.blocks ⊆ blocks := fun b hb => (h.underway.waiting.holds b hb).1
  have hlen := (List.subperm_of_subset hnodup hsub).length_le
  rw [OrphanPool.blocks, List.length_map] at hlen
  exact Nat.lt_of_lt_of_le (Nat.lt_of_le_of_lt hlen hroom) h.capacity_le

/-- A block that is in the tree or breaks a rule by itself needs nothing to be done. -/
theorem underway_of_settled (h : c.AtRest params verify now capacity blocks)
    (hsettled : b.check params now verify {} = .ok () → c.tree.contains b.hash = true) :
    Underway (Offered params verify now (blocks ++ [b])) params verify c.toChainState
      c.orphans.blocks [] [] where
  mirror := h.underway.mirror
  grounded := h.underway.grounded
  stored := fun _ _ hc => (h.underway.stored hc).imp id (Offered.append · b)
  waiting := h.underway.waiting.imp fun _ => (Offered.append · b)
  reached := h.underway.reached
  known := h.underway.known
  covered := by
    intro c hc
    rcases List.mem_append.1 hc.1 with hin | hin
    · exact h.underway.covered ⟨hin, hc.2⟩
    · obtain rfl := List.mem_singleton.1 hin
      exact .known (hsettled hc.2)

/-- The next block is submitted as if nothing was done about it yet. -/
theorem underway_cons (h : c.AtRest params verify now capacity blocks)
    (hoffered : Offered params verify now (blocks ++ [b]) b) (hnew : c.tree.find? b.hash = none)
    (hother : b.hash ∉ c.orphans.blocks.map (·.hash)) {held : List Block} {next : List Block}
    (hperm : (next ++ held).Perm (b :: c.orphans.blocks))
    (hreached : ∀ b' ∈ next, c.tree.contains b'.header.previous = true)
    (hcovers : Covered ⟨params, verify, c.tables⟩ c.tree held [] next b)
    (hheld : ∀ b' ∈ c.orphans.blocks, b' ∈ held) :
    Underway (Offered params verify now (blocks ++ [b])) params verify c.toChainState held []
      next where
  mirror := h.underway.mirror
  grounded := h.underway.grounded
  stored := fun _ _ hc => (h.underway.stored hc).imp id (Offered.append · b)
  waiting := ((h.underway.waiting.imp fun _ => (Offered.append · b)).cons hoffered hnew hother).perm hperm
  reached := hreached
  known := fun _ hin => nomatch hin
  covered := by
    intro c hc
    rcases List.mem_append.1 hc.1 with hin | hin
    · cases h.underway.covered ⟨hin, hc.2⟩ with
      | known known => exact .known known
      | refused refused => exact .refused refused
      | next hnext => cases hnext
      | waits hin' released => exact .waits (hheld c hin') released
    · obtain rfl := List.mem_singleton.1 hin
      exact hcovers

/-- A block whose parent is not known waits. -/
theorem add (h : c.AtRest params verify now capacity blocks)
    (hoffered : Offered params verify now (blocks ++ [b]) b) (hnew : c.tree.find? b.hash = none)
    (hother : b.hash ∉ c.orphans.blocks.map (·.hash)) (hroom : blocks.length < capacity)
    (hparent : c.tree.contains b.header.previous ≠ true) :
    ({ c with orphans := c.orphans.add b now } : Chain σ).AtRest params verify now capacity
      (blocks ++ [b]) := by
  have hunheld : c.orphans.contains b.hash = false := by
    rw [← Bool.not_eq_true, OrphanPool.contains_iff h.named]
    exact hother
  have hsize := h.size_lt hroom
  have hadd := OrphanPool.add_of_room hunheld h.fresh hsize
  refine ⟨h.params_eq, h.verify_eq, h.named.add, h.fresh.add hunheld hsize h.lasting, ?_, ?_, ?_⟩
  · rw [hadd]
    exact h.lasting
  · rw [hadd]
    exact h.capacity_le
  · change Underway _ _ _ _ (c.orphans.add b now).blocks _ _
    rw [OrphanPool.blocks_add_of_room hunheld h.fresh hsize]
    refine h.underway_cons hoffered hnew hother (List.perm_append_singleton ..)
      (fun _ hb' => absurd hb' List.not_mem_nil) (.waits ?_ fun hknown => absurd hknown hparent) ?_
    · exact List.mem_append_right _ (List.mem_singleton_self b)
    · exact fun b' hb' => List.mem_append_left _ hb'

variable [ReliableChainStore σ]

/-- A call overlooks no block, and does not fail. -/
theorem process (h : c.AtRest params verify now capacity blocks) (hnone : params.checkpoints = [])
    (hdistinct : ((blocks ++ [b]).map (·.hash)).Nodup) (hroom : blocks.length < capacity) :
    ∃ outcome c', c.process b {} now = (.ok outcome, c') ∧
      c'.AtRest params verify now capacity (blocks ++ [b]) := by
  have hother : b.hash ∉ c.orphans.blocks.map (·.hash) := by
    intro hin
    obtain ⟨b', hb', heq⟩ := List.mem_map.1 hin
    have hmem := (h.underway.waiting.holds b' hb').1
    rw [List.map_append, List.nodup_append] at hdistinct
    exact hdistinct.2.2 _ (List.mem_map.2 ⟨b', hmem, heq⟩) _ (List.mem_singleton_self _) rfl
  have hunheld : c.orphans.contains b.hash = false := by
    rw [← Bool.not_eq_true, OrphanPool.contains_iff h.named]
    exact hother
  rw [Chain.process]
  rcases hcheck : c.checkNew b {} now with violation | _
  · -- the block is known or breaks a rule by itself
    refine ⟨_, c, rfl, { h with underway := h.underway_of_settled fun hok => ?_ }⟩
    rw [← h.params_eq, ← h.verify_eq] at hok
    rw [checkNew, Block.checkBounds_of_nil (h.params_eq ▸ hnone), hok] at hcheck
    by_contra hunknown
    rw [Bool.not_eq_true] at hunknown
    rw [has, hunknown, hunheld] at hcheck
    cases hcheck
  obtain ⟨hnew, -, hok⟩ := checkNew_eq_ok hcheck
  rw [h.params_eq, h.verify_eq] at hok
  have hoffered : Offered params verify now (blocks ++ [b]) b :=
    ⟨List.mem_append_right _ (List.mem_singleton_self b), hok⟩
  by_cases hparent : c.tree.contains b.header.previous = true
  · -- it can be added
    have hstart := h.underway_cons hoffered hnew hother (List.Perm.refl (b :: c.orphans.blocks))
      (fun b' hb' => List.mem_singleton.1 hb' ▸ hparent) (.next (List.mem_singleton_self b))
      fun _ => id
    simp only [hparent, if_true, h.params_eq, h.verify_eq]
    obtain ⟨s, ⟨isTip, haccept, hs⟩ | ⟨violation, haccept, hs⟩⟩ :=
      hstart.accept Offered.checked hnone
    · obtain ⟨s', pool, hrelease, hs', hn, hfresh, hcapacity, hlifetime⟩ :=
        hs.acceptOrphans Offered.checked hnone h.named h.fresh
      simp only [haccept, hrelease]
      exact ⟨_, _, rfl, rfl, rfl, hn, hfresh, hlifetime ▸ h.lasting,
        hcapacity ▸ h.capacity_le, hs'⟩
    · simp only [haccept]
      exact ⟨_, _, rfl, rfl, rfl, h.named, h.fresh, h.lasting, h.capacity_le, hs⟩
  · -- it has to wait
    simp only [hparent]
    exact ⟨_, _, rfl, h.add hoffered hnew hother hroom hparent⟩

/-- Any number of calls overlook no block, as long as the pool can hold all of them. -/
theorem submit {more : List Block} (h : c.AtRest params verify now capacity blocks)
    (hnone : params.checkpoints = []) (hdistinct : ((blocks ++ more).map (·.hash)).Nodup)
    (hroom : (blocks ++ more).length ≤ capacity) :
    (c.submit now more).AtRest params verify now capacity (blocks ++ more) := by
  induction more generalizing c blocks with
  | nil =>
    rw [List.append_nil]
    exact h
  | cons b more ih =>
    have hassoc : blocks ++ b :: more = (blocks ++ [b]) ++ more := by simp
    rw [hassoc] at hdistinct hroom ⊢
    obtain ⟨outcome, c', hprocess, h'⟩ := h.process hnone
      (hdistinct.sublist ((List.sublist_append_left ..).map _)) (by
        rw [List.length_append, List.length_append, List.length_singleton] at hroom
        omega)
    rw [Chain.submit, List.foldl_cons, hprocess]
    exact ih h' hdistinct hroom

end AtRest

/-- Nothing was overlooked yet when a chain was opened on an empty store. -/
theorem atRest_of_openStore [LawfulChainStore σ] {store store' : σ} {capacity : Nat} {lifetime : Int}
    {c : Chain σ} (hempty : ChainStore.tables store = {})
    (hopen : openStore params verify (.ofLimits capacity lifetime) store = (.ok c, store'))
    (hnone : params.checkpoints = []) (hlasting : now < now.addSeconds lifetime) :
    c.AtRest params verify now capacity [] := by
  obtain ⟨-, -, -, -, hparams, hverify, hpool⟩ := openStore_eq_ok hopen
  obtain ⟨htables, -⟩ := opened_on_empty hempty hopen
  have hreached : c.Reachable params verify fun flags => flags = {} := .opened hempty hopen
  refine ⟨hparams, hverify, ?_, ?_, ?_, ?_, hreached.mirror, hreached.grounded hnone, ?_, ?_, ?_,
    ?_, ?_⟩
  · rw [hpool]
    exact OrphanPool.named_ofLimits _ _
  · rw [hpool]
    exact fun _ ho => nomatch ho
  · rw [hpool]
    exact hlasting
  · rw [hpool]
    exact Nat.le_max_left ..
  · intro hash b hb
    rw [htables] at hb
    exact Or.inl (params.stored_genesisTables.1 hb).2
  · rw [hpool]
    exact .nil
  · exact fun _ hb => nomatch hb
  · exact fun _ hin => nomatch hin
  · exact fun b hb => nomatch hb.1

/-- No block is overlooked that is submitted to a new chain. -/
theorem atRest_submit [ReliableChainStore σ] {store store' : σ} {capacity : Nat} {lifetime : Int}
    {c : Chain σ} {blocks : List Block} (hempty : ChainStore.tables store = {})
    (hopen : openStore params verify (.ofLimits capacity lifetime) store = (.ok c, store'))
    (hnone : params.checkpoints = []) (hlasting : now < now.addSeconds lifetime)
    (hdistinct : (blocks.map (·.hash)).Nodup) (hroom : blocks.length ≤ capacity) :
    (c.submit now blocks).AtRest params verify now capacity blocks :=
  (atRest_of_openStore hempty hopen hnone hlasting).submit hnone hdistinct hroom

end Chain

end PermissionedLedger
