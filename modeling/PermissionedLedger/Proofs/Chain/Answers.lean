import Mathlib
import PermissionedLedger.Chain.Queries
import PermissionedLedger.Proofs.Chain.Attempts

/-!
# What a call answers

The answer to a block that is accepted is fixed before the blocks that waited for it are
looked at. What it says still holds when the call returns:

* **the block is the tip** — it is on the main chain, for all that was added since descends
  from it (`Overgrown`);
* **the block is not the tip** — it is not on the main chain, unless a block that waited for
  it came to be there;
* **the block waits** — it is held, and not known;
* **the block is rejected** — it is not on the main chain, unless it was there before. Then
  it is rejected for being known, and nothing changes.

The second exception and the last do happen (`Chain.answers_differ`).
-/

namespace PermissionedLedger

open BlockTree Plan
open Time (Instant)

variable {σ : Type} [ChainStore σ] {params : Params} {verify : Verifier} {flags : AddFlags}
  {P : Block → Prop}

/-! ## Blocks that are released -/

section

variable {now : Instant}

namespace OrphanPool

variable {pool : OrphanPool} {root hash : Digest}

/-- Orphans that have not expired lead from one digest to another. -/
inductive Leads (pool : OrphanPool) (now : Instant) (root : Digest) : Digest → Prop
  | refl : Leads pool now root root
  | step {o : Orphan} (held : o ∈ pool.held) (lasts : o.isExpired now = false)
      (below : Leads pool now root o.parent) : Leads pool now root o.block.hash

/-- A block is held that orphans lead to, and has not expired. -/
def Releases (pool : OrphanPool) (now : Instant) (root : Digest) (b : Block) : Prop :=
  ∃ o ∈ pool.held, o.block = b ∧ o.isExpired now = false ∧ pool.Leads now root o.parent

theorem Releases.leads {b : Block} (h : pool.Releases now root b) : pool.Leads now root b.hash := by
  obtain ⟨o, ho, rfl, hlasts, hbelow⟩ := h
  exact .step ho hlasts hbelow

theorem Releases.leads_previous {b : Block} (h : pool.Releases now root b) :
    pool.Leads now root b.header.previous := by
  obtain ⟨o, -, rfl, -, hbelow⟩ := h
  exact hbelow

/-- What is led to is the start, or is held. -/
theorem Leads.eq_or_mem (h : pool.Leads now root hash) :
    hash = root ∨ ∃ b ∈ pool.blocks, b.hash = hash := by
  cases h with
  | refl => exact Or.inl rfl
  | @step o held lasts below => exact Or.inr ⟨o.block, List.mem_map_of_mem held, rfl⟩

end OrphanPool

namespace ChainState

variable {s s' : ChainState σ}

/-- Accepted are only blocks that were tried. -/
theorem mem_of_acceptAll {accepted result : List Digest} {blocks : List Block}
    (h : acceptAll params verify flags s accepted blocks = (.ok result, s')) {hash : Digest}
    (hmem : hash ∈ result) : hash ∈ accepted ∨ ∃ b ∈ blocks, b.hash = hash := by
  induction blocks generalizing s accepted with
  | nil =>
    obtain ⟨hr, -⟩ := Prod.mk.inj h
    obtain rfl := Except.ok.inj hr
    exact Or.inl hmem
  | cons b blocks ih =>
    have hrest : ∀ {c}, c ∈ blocks → c ∈ b :: blocks := fun hc => List.mem_cons_of_mem _ hc
    rw [acceptAll] at h
    split at h
    · rcases ih h with hin | ⟨c, hc, heq⟩
      · rcases List.mem_cons.1 hin with rfl | hin
        · exact Or.inr ⟨b, List.mem_cons_self .., rfl⟩
        · exact Or.inl hin
      · exact Or.inr ⟨c, hrest hc, heq⟩
    · rcases ih h with hin | ⟨c, hc, heq⟩
      · exact Or.inl hin
      · exact Or.inr ⟨c, hrest hc, heq⟩
    · cases h

/-- The children of a block that was led to can be added, and the other orphans still wait. -/
theorem waiting_takeChildren {t : BlockTree} {pool₀ pool : OrphanPool} {root parent : Digest}
    (hsub : pool.held ⊆ pool₀.held) (hparent : pool₀.Leads now root parent)
    (hw : Waiting P t pool.blocks) :
    Waiting P t ((pool.takeChildren parent now).1 ++ (pool.takeChildren parent now).2.blocks) ∧
      Waiting (fun b => P b ∧ pool₀.Releases now root b) t (pool.takeChildren parent now).1 := by
  obtain ⟨children, hchildren, hperm⟩ := pool.blocks_takeChildren parent now
  have hall := (hw.perm hperm).sublist (hchildren.append (List.Sublist.refl _))
  have htaken := hall.sublist (List.sublist_append_left ..)
  refine ⟨hall, fun b hb => ⟨htaken.holds b hb, ?_⟩, htaken.unknown, htaken.distinct⟩
  obtain ⟨o, ho, rfl, hlasts, rfl⟩ := OrphanPool.mem_takeChildren.1 hb
  exact ⟨o, hsub ho, rfl, hlasts, hparent⟩

/-- All that is added after a block are orphans that it releases. -/
theorem releases_of_acceptOrphans [LawfulChainStore σ] {pool₀ pool pool' : OrphanPool}
    {root : Digest} {parents : List Digest} {r : Except EngineFault Unit}
    (hsub : pool.held ⊆ pool₀.held) (hparents : ∀ d ∈ parents, pool₀.Leads now root d)
    (hw : Waiting P s.tree pool.blocks)
    (h : s.acceptOrphans params verify flags now pool parents = (r, s', pool')) :
    Steps (fun b => P b ∧ pool₀.Releases now root b) params verify flags s s' := by
  fun_induction ChainState.acceptOrphans params verify flags now s pool parents with
  | case1 s pool =>
    obtain ⟨-, rfl, -⟩ := h
    exact .refl
  | case2 s pool parent parents taken fault u haccept =>
    obtain ⟨-, rfl, -⟩ := h
    obtain ⟨-, htaken⟩ := waiting_takeChildren hsub (hparents _ (List.mem_cons_self ..)) hw
    rw [← List.append_nil (pool.takeChildren parent now).1] at htaken
    exact (acceptAll_steps htaken haccept).1
  | case3 s pool parent parents taken accepted u haccept ih =>
    obtain ⟨hall, htaken⟩ := waiting_takeChildren hsub (hparents _ (List.mem_cons_self ..)) hw
    obtain ⟨-, hrest⟩ := acceptAll_steps hall haccept
    have hreleased := htaken.holds
    rw [← List.append_nil (pool.takeChildren parent now).1] at htaken
    obtain ⟨hsteps, -⟩ := acceptAll_steps htaken haccept
    refine hsteps.trans (ih ?_ ?_ hrest h)
    · exact List.Subset.trans (pool.held_takeChildren_subset parent now) hsub
    · -- those that were accepted are led to as well
      intro d hd
      rcases List.mem_append.1 hd with hd | hd
      · rcases mem_of_acceptAll haccept hd with hnone | ⟨b, hb, rfl⟩
        · cases hnone
        · exact (hreleased b hb).2.leads
      · exact hparents d (List.mem_cons_of_mem _ hd)

end ChainState

/-! ## The tree after a block -/

/-- A block was added at a node, as the tip or not. All that was added since are orphans it
releases. -/
structure Overgrown (pool : OrphanPool) (now : Instant) (root : Digest) (id : Nat) (isTip : Bool)
    (t : BlockTree) : Prop where
  /-- the node is that of the block -/
  found : t.find? root = some id
  /-- nodes that are led to descend from it -/
  descends : ∀ {i n}, t.node? i = some n → pool.Leads now root n.hash → id ∈ t.lineage i
  /-- nodes after it are those of orphans -/
  later : ∀ {i n}, t.node? i = some n → id < i →
    ∃ o ∈ pool.held, o.isExpired now = false ∧ o.block.header = n.header
  /-- the tip descends from it if it was the tip, and is another one if it was not -/
  tip : ∀ {tip}, t.tip? = some tip → (isTip = true → id ∈ t.lineage tip) ∧
    (isTip = false → tip ≠ id)

/-- Releasing orphans goes on like this. -/
theorem overgrown_keptByPlans {pool : OrphanPool} {root : Digest} {id : Nat} {isTip : Bool} :
    KeptByPlansFor (fun b => P b ∧ pool.Releases now root b) params verify flags
      fun _ t _ => Overgrown pool now root id isTip t := by
  rintro T t best block plan p parent keys ⟨-, hreleased⟩ hm h hadds
  obtain ⟨m, hm', -⟩ := hm.coherent.find?_iff.1 h.found
  have hid := node?_lt hm'
  -- the parent was led to
  have hp : id ∈ t.lineage p := by
    apply h.descends hadds.admits.node
    rw [← hadds.admits.previous hm.coherent]
    exact hreleased.leads_previous
  constructor
  case found =>
    rw [hadds.selected.find?_eq, Plan.find?_grown, if_neg]
    · exact h.found
    · rintro rfl
      have hunknown := hadds.unknown
      rw [h.found] at hunknown
      cases hunknown
  case descends =>
    intro i n hn hleads
    rcases hadds.node_cases hn with ⟨rfl, -⟩ | ⟨m, hm', hhash, -⟩
    · exact hadds.mem_lineage (Or.inr ⟨rfl, hp⟩)
    · exact hadds.mem_lineage (Or.inl ⟨node?_lt hm', h.descends hm' (hhash ▸ hleads)⟩)
  case later =>
    intro i n hn hi
    rcases hadds.node_cases hn with ⟨rfl, hheader⟩ | ⟨m, hm', -, hheader⟩
    · obtain ⟨o, ho, rfl, hlasts, -⟩ := hreleased
      exact ⟨o, ho, hlasts, hheader.symm⟩
    · obtain ⟨o, ho, hlasts, heq⟩ := h.later hm' hi
      exact ⟨o, ho, hlasts, heq.trans hheader⟩
  case tip =>
    intro tip htip
    rcases hadds.tip?_cases hm with ⟨hsame, -⟩ | ⟨hnewest, -⟩
    · rw [hsame] at htip
      obtain ⟨habove, hother⟩ := h.tip htip
      exact ⟨fun his => hadds.mem_lineage (Or.inl ⟨hm.path.tip_lt htip, habove his⟩), hother⟩
    · obtain rfl := Option.some.inj (htip.symm.trans hnewest)
      exact ⟨fun _ => hadds.mem_lineage (Or.inr ⟨rfl, hp⟩), fun _ => Nat.ne_of_gt hid⟩

/-! ## Calls -/

namespace Chain

variable {c c' : Chain σ} {block : Block} {outcome : Outcome}

/-- How a call goes that does not fail (`Proceeds` without the attempts). -/
inductive Answers (c : Chain σ) (block : Block) (flags : AddFlags) (now : Instant) :
    Outcome → Chain σ → Prop
  /-- the block is rejected at once -/
  | refused {violation : Violation} (failed : c.checkNew block flags now = .error violation) :
      Answers c block flags now (.rejected violation) c
  /-- it waits -/
  | held (new : c.checkNew block flags now = .ok ()) :
      Answers c block flags now .orphaned { c with orphans := c.orphans.add block now }
  /-- it breaks a rule under its parent -/
  | broken {violation : Violation} {s : ChainState σ} (new : c.checkNew block flags now = .ok ())
      (failed : c.accept c.params c.verify block flags = (.error (.rule violation), s)) :
      Answers c block flags now (.rejected violation) { c with toChainState := s }
  /-- it is added, and after it the orphans that descend from it -/
  | added {isTip : Bool} {s s' : ChainState σ} {orphans : OrphanPool}
      (new : c.checkNew block flags now = .ok ())
      (accepted : c.accept c.params c.verify block flags = (.ok isTip, s))
      (released : s.acceptOrphans c.params c.verify flags now c.orphans [block.hash] =
        (.ok (), s', orphans)) :
      Answers c block flags now (.accepted isTip) { c with toChainState := s', orphans }

theorem answers_of_process (h : c.process block flags now = (.ok outcome, c')) :
    c.Answers block flags now outcome c' := by
  have hproceeds := proceeds_of_process h
  generalize c.attempts block flags now = attempts at hproceeds
  generalize hr : Except.ok outcome = r at hproceeds
  cases hproceeds with
  | refused invalid =>
    obtain rfl := Except.ok.inj hr
    exact .refused invalid
  | held new unknown =>
    obtain rfl := Except.ok.inj hr
    exact .held new
  | broken new rejected =>
    obtain rfl := Except.ok.inj hr
    exact .broken new rejected
  | failed new failed => cases hr
  | @added isTip s s' orphans r new accepted released =>
    rcases r with fault | _
    · cases hr
    · obtain rfl := Except.ok.inj hr
      exact .added new accepted released

/-- Whether a block is on the main chain: at its height the main chain has its digest. -/
def isMain (c : Chain σ) (hash : Digest) : Bool :=
  (c.tree.findNode? hash).any fun n => c.mainHash? n.height = some hash

theorem isMain_iff (hm : Mirror params c.tables c.tree) {tip : Nat}
    (htip : c.tree.tip? = some tip) {hash : Digest} : c.isMain hash = true ↔
      ∃ i n, c.tree.node? i = some n ∧ n.hash = hash ∧ i ∈ c.tree.lineage tip := by
  have hmain : ∀ {i n}, c.tree.node? i = some n →
      (i ∈ c.tree.lineage tip ↔ c.tree.mainAt? n.height = some i) := by
    intro i n hn
    rw [← isInMain_iff hm.coherent hm.path htip, isInMain, hn]
    exact decide_eq_true_iff
  simp only [isMain, Option.any_eq_true, decide_eq_true_eq]
  constructor
  · rintro ⟨n, hn, hat⟩
    obtain ⟨i, hi, hhash⟩ := hm.coherent.findNode?_iff.1 hn
    obtain ⟨m, hbind, heq⟩ := Option.map_eq_some_iff.1 hat
    obtain ⟨j, hj, hm'⟩ := Option.bind_eq_some_iff.1 hbind
    obtain rfl := hm.coherent.eq_of_hash_eq hm' hi (heq.trans hhash.symm)
    exact ⟨j, n, hi, hhash, (hmain hi).2 hj⟩
  · rintro ⟨i, n, hn, rfl, hi⟩
    refine ⟨n, hm.coherent.findNode?_eq_some hn, ?_⟩
    rw [mainHash?, (hmain hn).1 hi, Option.bind_some, hn, Option.map_some]

omit [ChainStore σ] in
/-- A block that is on the main chain is known. -/
theorem has_of_isMain {hash : Digest} (h : c.isMain hash = true) : c.has hash = true := by
  obtain ⟨n, hn, -⟩ := (Option.any_eq_true _ _).1 h
  obtain ⟨i, hi, -⟩ := Option.bind_eq_some_iff.1 hn
  rw [has, BlockTree.contains, hi]
  rfl

omit [ChainStore σ] in
/-- A block that is known is rejected for it. -/
theorem checkNew_of_has (h : c.has block.hash = true) :
    c.checkNew block flags now = .error (.placement (.alreadyKnown block.hash)) := by
  rw [checkNew, h]
  rfl

variable [LawfulChainStore σ] {allowed : AddFlags → Prop} {isTip : Bool} {s s' : ChainState σ}

/-- What is known of the tree when a block was added, before orphans are. -/
theorem Reachable.overgrown_of_accept (h : Reachable params verify allowed c)
    (new : c.checkNew block flags now = .ok ())
    (accepted : c.accept params verify block flags = (.ok isTip, s)) :
    Mirror params s.tables s.tree ∧
      Overgrown c.orphans now block.hash c.tree.size isTip s.tree := by
  obtain ⟨hc, rfl, rfl⟩ := h.orderly
  obtain ⟨hnew, -, hcheck⟩ := checkNew_eq_ok new
  have hchecked : block.Checked c.params c.verify := ⟨now, flags, hcheck⟩
  have hwaiting := (hc.waiting_cons hchecked new).accept accepted
  rcases ChainState.accept_cases accepted with
    ⟨plan, hplan, htables, htree, -, hr⟩ | ⟨_, hr, -⟩
  swap
  · cases hr
  obtain ⟨p, parent, keys, hadmits, hselected⟩ := Plan.ofBlock_eq_ok hplan
  have hadds := Plan.Adds.mk hchecked.wellFormed hnew hadmits hselected
  have hverdict : plan.verdict = .ok isTip := mapError_eq_ok.1 hr.symm
  have hm : Mirror c.params s.tables s.tree := by
    rw [htables, htree]
    exact h.mirror.of_plan hadds
  have hsize : s.tree.size = c.tree.size + 1 := by
    rw [htree, hadds.selected.size_eq, size_grown]
  have hfound : s.tree.find? block.hash = some c.tree.size := by
    rw [htree, Plan.find?_of_ofBlock hplan, if_pos rfl]
  refine ⟨hm, ?_⟩
  constructor
  case found => exact hfound
  case descends =>
    intro i n hn hleads
    have hi := hm.coherent.find?_eq_some hn
    rcases hleads.eq_or_mem with heq | ⟨b, hb, heq⟩
    · rw [heq, hfound] at hi
      obtain rfl := Option.some.inj hi
      exact mem_lineage_self (node?_lt hn)
    · -- what waits is not known
      have hunknown := hwaiting.unknown b hb
      rw [heq, hi] at hunknown
      cases hunknown
  case later =>
    intro i n hn hi
    have hlt := node?_lt hn
    omega
  case tip =>
    intro tip htip
    rw [htree] at htip
    rcases hadds.tip?_cases h.mirror with ⟨hsame, hnot⟩ | ⟨hnewest, his⟩
    · rw [hsame] at htip
      constructor
      · rintro rfl
        exact absurd hverdict hnot
      · exact fun _ => Nat.ne_of_lt (h.mirror.path.tip_lt htip)
    · obtain rfl := Option.some.inj (htip.symm.trans hnewest)
      constructor
      · intro _
        exact mem_lineage_self (by omega)
      · rintro rfl
        rw [hverdict] at his
        cases his

/-- What is known of the tree when a call returns that added a block. -/
theorem Reachable.overgrown (h : Reachable params verify allowed c) {orphans : OrphanPool}
    {r : Except EngineFault Unit} (new : c.checkNew block flags now = .ok ())
    (accepted : c.accept params verify block flags = (.ok isTip, s))
    (released : s.acceptOrphans params verify flags now c.orphans [block.hash] =
      (r, s', orphans)) :
    ∃ id, Mirror params s'.tables s'.tree ∧
      Overgrown c.orphans now block.hash id isTip s'.tree := by
  obtain ⟨hm, hover⟩ := h.overgrown_of_accept new accepted
  obtain ⟨hc, rfl, rfl⟩ := h.orderly
  obtain ⟨-, -, hcheck⟩ := checkNew_eq_ok new
  have hwaiting := (hc.waiting_cons ⟨now, flags, hcheck⟩ new).accept accepted
  have hparents : ∀ d ∈ [block.hash], c.orphans.Leads now block.hash d := by
    intro d hd
    rw [List.mem_singleton.1 hd]
    exact .refl
  have hsteps :=
    ChainState.releases_of_acceptOrphans (List.Subset.refl _) hparents hwaiting released
  exact ⟨c.tree.size, hsteps.keepsFor overgrown_keptByPlans (fun hb => hb.1) hm hover⟩

/-- A block that breaks a rule does not come to be on the main chain. -/
theorem Reachable.isMain_of_error (h : Reachable params verify allowed c) {failure : Failure}
    (new : c.checkNew block flags now = .ok ())
    (failed : c.accept params verify block flags = (.error failure, s)) :
    ({ c with toChainState := s } : Chain σ).isMain block.hash = false := by
  obtain ⟨-, rfl, rfl⟩ := h.orderly
  obtain ⟨hnew, -, hcheck⟩ := checkNew_eq_ok new
  obtain ⟨tip, -, htip, -⟩ := h.mirror.tip
  rw [Bool.eq_false_iff]
  intro hmain
  obtain ⟨n, hn, hat⟩ := (Option.any_eq_true _ _).1 hmain
  obtain ⟨m, hbind, hhash⟩ := Option.map_eq_some_iff.1 (of_decide_eq_true hat)
  obtain ⟨j, hj, hm⟩ := Option.bind_eq_some_iff.1 hbind
  -- no node from before has the digest
  have hold : ∀ {i k}, c.tree.node? i = some k → k.hash ≠ block.hash := by
    intro i k hk heq
    have hfound := h.mirror.coherent.find?_eq_some hk
    rw [heq, hnew] at hfound
    cases hfound
  rcases ChainState.accept_error h.mirror h.settled (Block.wellFormed_of_check hcheck) hnew failed
    with hsame | ⟨violation, -, hkeeps, failed', hcondemned⟩
  · rw [hsame.tree] at hm
    exact hold hm hhash
  · -- the main chain consists of such nodes
    have hin : j ∈ c.tree.main.toList := by
      rw [mainAt?, hkeeps.main] at hj
      exact Array.mem_toList_iff.2 (Array.mem_of_getElem? hj)
    rw [h.mirror.path tip htip, List.mem_reverse] at hin
    obtain ⟨k, hk⟩ := BlockTree.exists_node (lt_size_of_mem_lineage hin)
    have hm' := hcondemned.others hk
    rw [hm] at hm'
    apply hold hk
    rw [← hhash, Option.some.inj hm']
    split <;> rfl

/-- What a call answers holds when it returns. Of two answers only part is true. A block that was
accepted apart from the tip is on the main chain if one that waited for it is. A block that was
rejected is there if it was before. -/
theorem Reachable.answer_holds (h : Reachable params verify (fun _ => True) c)
    (hprocess : c.process block flags now = (.ok outcome, c')) :
    (outcome = .accepted true → c'.isMain block.hash = true) ∧
    (outcome = .accepted false → c'.isMain block.hash = true →
      ∃ o ∈ c.orphans.held, o.parent = block.hash ∧ o.isExpired now = false ∧
        c'.isMain o.block.hash = true) ∧
    (outcome = .orphaned →
      c'.hasOrphan block.hash = true ∧ c'.tree.contains block.hash = false) ∧
    (∀ violation, outcome = .rejected violation → c'.isMain block.hash = true →
      violation = .placement (.alreadyKnown block.hash) ∧ c' = c) := by
  obtain ⟨hc, rfl, rfl⟩ := h.orderly
  cases answers_of_process hprocess with
  | @refused violation failed =>
    refine ⟨by simp, by simp, by simp, ?_⟩
    rintro _ ⟨⟩ hmain
    rw [checkNew_of_has (has_of_isMain hmain)] at failed
    exact ⟨(Except.error.inj failed).symm, rfl⟩
  | held new =>
    obtain ⟨hnew, hpool, -⟩ := checkNew_eq_ok new
    refine ⟨by simp, by simp, fun _ => ⟨OrphanPool.contains_add hpool now, ?_⟩, by simp⟩
    rw [BlockTree.contains, hnew]
    rfl
  | @broken violation s new failed =>
    refine ⟨by simp, by simp, by simp, ?_⟩
    intro _ _ hmain
    rw [h.isMain_of_error new failed] at hmain
    cases hmain
  | @added isTip s s' orphans new accepted released =>
    obtain ⟨id, hm, hover⟩ := h.overgrown new accepted released
    obtain ⟨tip, -, htip, -⟩ := hm.tip
    obtain ⟨n, hn, hhash⟩ := hm.coherent.find?_iff.1 hover.found
    obtain ⟨habove, hother⟩ := hover.tip htip
    have hmain : ∀ {hash}, ({ c with toChainState := s', orphans } : Chain σ).isMain hash = true ↔
        ∃ i n, s'.tree.node? i = some n ∧ n.hash = hash ∧ i ∈ s'.tree.lineage tip :=
      isMain_iff hm htip
    refine ⟨?_, ?_, by simp, by simp⟩
    · rintro ⟨⟩
      exact hmain.2 ⟨id, n, hn, hhash, habove rfl⟩
    · rintro ⟨⟩ hin
      obtain ⟨i, m, hi, hhash', hmem⟩ := hmain.1 hin
      obtain rfl := hm.coherent.eq_of_hash_eq hi hn (hhash'.trans hhash.symm)
      -- a child of the node is on the main chain as well, and came later
      obtain ⟨k, l, hk, hl, hparent⟩ := exists_child_of_mem_lineage hmem (hother rfl).symm
      obtain ⟨o, ho, hlasts, hheader⟩ := hover.later hl (parent_lt_of_node? hl hparent)
      refine ⟨o, ho, ?_, hlasts, hmain.2 ⟨k, l, hl, ?_, hk⟩⟩
      · rw [Orphan.parent, hheader, hm.linked hl hparent hn, hhash]
      · rw [hm.coherent.hash_eq hl, ← hheader]
        rfl

end Chain

end

/-! ## Answers that say less -/

namespace Sample

/-- Whether the first block is answered in this way and is on the main chain nevertheless. -/
def firstIsMain (answered : Outcome → Bool) (c : Chain MemoryStore) : Bool :=
  match c.process first {} now with
  | (.ok outcome, c') => answered outcome && c'.isMain first.hash
  | _ => false

/-- Whether a block was accepted, as the tip or not. -/
def wasAccepted (isTip : Bool) : Outcome → Bool
  | .accepted b => b = isTip
  | _ => false

/-- Whether a block was rejected. -/
def wasRejected : Outcome → Bool
  | .rejected _ => true
  | _ => false

/-- The second block waits for the first. Where the rival is the tip, it takes the first one along
to the main chain. -/
theorem ends_first :
    ((after? network now [second]).any (firstIsMain (wasAccepted true))) = true ∧
    ((after? network now [rival, second]).any (firstIsMain (wasAccepted false))) = true ∧
    ((after? network now [first]).any (firstIsMain wasRejected)) = true := by
  decide +kernel

theorem of_firstIsMain {blocks : List Block} {answered : Outcome → Bool}
    (h : ((after? network now blocks).any (firstIsMain answered)) = true) :
    ∃ (c c' : Chain MemoryStore) (outcome : Outcome),
      c.Reachable network trusting (fun _ => True) ∧ answered outcome = true ∧
      c.process first {} now = (.ok outcome, c') ∧ c'.isMain first.hash = true := by
  obtain ⟨c, store, hopen, hfirst⟩ := exists_opened h
  have hopened : c.Reachable network trusting fun _ => True := .opened rfl hopen
  have hreached := hopened.submit trivial now blocks
  rw [firstIsMain] at hfirst
  split at hfirst
  · next outcome c' hprocess =>
    obtain ⟨hanswered, hmain⟩ := Bool.and_eq_true_iff.1 hfirst
    exact ⟨_, c', outcome, hreached, hanswered, hprocess, hmain⟩
  · cases hfirst

end Sample

namespace Chain

/-- The first block is the tip when it is accepted. It is still on the main chain when the second
block, which waited for it, has taken its place. -/
theorem answer_holds_after_run : ∃ (c c' : Chain MemoryStore),
    c.process Sample.first {} Sample.now = (.ok (.accepted true), c') ∧
      c'.isMain Sample.first.hash = true := by
  obtain ⟨c, c', outcome, hreached, haccepted, hprocess, -⟩ :=
    Sample.of_firstIsMain Sample.ends_first.1
  cases outcome with
  | accepted isTip =>
    obtain rfl : isTip = true := of_decide_eq_true haccepted
    exact ⟨c, c', hprocess, (hreached.answer_holds hprocess).1 rfl⟩
  | orphaned => cases haccepted
  | rejected => cases haccepted

/-- A block can be on the main chain after an answer that it is not the tip, and after one that it
was rejected. -/
theorem answers_differ :
    (∃ c c' : Chain MemoryStore, c.Reachable Sample.network Sample.trusting (fun _ => True) ∧
      c.process Sample.first {} Sample.now = (.ok (.accepted false), c') ∧
      c'.isMain Sample.first.hash = true) ∧
    (∃ (c c' : Chain MemoryStore) (violation : Violation),
      c.Reachable Sample.network Sample.trusting (fun _ => True) ∧
      c.process Sample.first {} Sample.now = (.ok (.rejected violation), c') ∧
      c'.isMain Sample.first.hash = true) := by
  constructor
  · obtain ⟨c, c', outcome, hreached, haccepted, hprocess, hmain⟩ :=
      Sample.of_firstIsMain Sample.ends_first.2.1
    cases outcome with
    | accepted isTip =>
      obtain rfl : isTip = false := of_decide_eq_true haccepted
      exact ⟨c, c', hreached, hprocess, hmain⟩
    | orphaned => cases haccepted
    | rejected => cases haccepted
  · obtain ⟨c, c', outcome, hreached, hrejected, hprocess, hmain⟩ :=
      Sample.of_firstIsMain Sample.ends_first.2.2
    cases outcome with
    | rejected violation => exact ⟨c, c', violation, hreached, hprocess, hmain⟩
    | accepted => cases hrejected
    | orphaned => cases hrejected

end Chain

end PermissionedLedger
