import Mathlib
import PermissionedLedger.Chain.Queries
import PermissionedLedger.Proofs.Chain.Atomicity
import PermissionedLedger.Proofs.Chain.Replay

/-!
# Blocks that are trusted

A call with `fastAdd` vouches for its block, and the checks of the signer and of the
spending are left out. They are left out for every block that the call adds or
connects: for those that waited for its block, and for those below it on a branch that
becomes the main chain.

A block passes through its statuses in one order (`BlockStatus.stage`), and where a call
leaves the status as it was, the call did nothing to it. So if the status of a block on
the main chain was never changed by a call with `fastAdd`, then it was checked in full
(`Chain.checked_of_untrusted`). That its own call came without the flag does not suffice
(`Chain.trust_passes_on`).
-/

namespace PermissionedLedger

open BlockTree CoinView Plan
open Time (Instant)

variable {σ : Type} [ChainStore σ] {params : Params} {verify : Verifier} {flags : AddFlags}
  {P : Block → Prop} {hash : Digest}

/-! ## Progress of validation -/

/-- The statuses of a block in the order it passes through them, from being unknown on. -/
def BlockStatus.stage : Option BlockStatus → Nat
  | none => 0
  | some .unvalidated => 1
  | some .valid => 2
  | some .invalid => 3

theorem BlockStatus.stage_injective : Function.Injective stage := by
  rintro (_ | _ | _ | _) (_ | _ | _ | _) h <;> first | rfl | cases h

/-- How far a block has been validated. -/
def BlockTree.status? (t : BlockTree) (hash : Digest) : Option BlockStatus :=
  (t.findNode? hash).map (·.status)

theorem BlockTree.status?_eq_some_iff {t : BlockTree} (ht : t.Coherent) {status : BlockStatus} :
    t.status? hash = some status ↔
      ∃ i n, t.node? i = some n ∧ n.hash = hash ∧ n.status = status := by
  rw [status?, Option.map_eq_some_iff]
  constructor
  · rintro ⟨n, hn, hstatus⟩
    obtain ⟨i, hi, hhash⟩ := ht.findNode?_iff.1 hn
    exact ⟨i, n, hi, hhash, hstatus⟩
  · rintro ⟨i, n, hi, hhash, hstatus⟩
    exact ⟨n, ht.findNode?_iff.2 ⟨i, hi, hhash⟩, hstatus⟩

section Plans

variable {s : Setting} {t : BlockTree} {best : BestState} {block : Block} {plan : Plan} {p : Nat}
  {parent : TreeNode} {keys : KeySets}

/-- A plan takes no block back. -/
theorem Plan.Adds.stage_le (hadds : Adds s t best block flags p parent keys plan)
    (hm : Mirror s.params s.tables t) (hash : Digest) :
    BlockStatus.stage (t.status? hash) ≤ BlockStatus.stage (plan.tree.status? hash) := by
  rcases h : t.status? hash with _ | status
  · exact Nat.zero_le _
  · obtain ⟨i, n, hn, hhash, rfl⟩ := (status?_eq_some_iff hm.coherent).1 h
    obtain ⟨status, hn', hinvalid, hunvalidated⟩ :=
      hadds.selected.exists_status (node?_grown_of_some block p keys hn)
    rw [(status?_eq_some_iff (hm.of_plan hadds).coherent).2 ⟨i, _, hn', hhash, rfl⟩]
    rcases hstatus : n.status
    · cases status <;> simp [BlockStatus.stage]
    · cases status with
      | unvalidated =>
        have hsame := hunvalidated rfl
        rw [hstatus] at hsame
        cases hsame
      | valid => exact Nat.le_refl _
      | invalid => simp [BlockStatus.stage]
    · rw [hinvalid hstatus]

end Plans

theorem ChainState.Steps.stage_le {s s' : ChainState σ} (hs : Steps P params verify flags s s')
    (hP : ∀ {b}, P b → b.Checked params verify) (hm : Mirror params s.tables s.tree)
    (hash : Digest) :
    BlockStatus.stage (s.tree.status? hash) ≤ BlockStatus.stage (s'.tree.status? hash) := by
  have hkept : KeptByPlansFor P params verify flags fun _ t _ =>
      BlockStatus.stage (s.tree.status? hash) ≤ BlockStatus.stage (t.status? hash) :=
    fun _ _ _ _ _ _ _ _ _ hm hle hadds => Nat.le_trans hle (hadds.stage_le hm hash)
  exact (hs.keepsFor hkept hP hm (Nat.le_refl _)).2

/-! ## What was checked -/

/-- What is known of a block if no call with `fastAdd` changed its status. -/
structure Vetted (hash : Digest) (params : Params) (verify : Verifier) (T : Tables)
    (t : BlockTree) : Prop where
  /-- validation is consistent -/
  settled : t.Settled params
  /-- the stored coins are those of the main chain -/
  accurate : T.CollisionFree → Accurate T t
  /-- where it is below a valid node, it was accepted -/
  accepted : T.CollisionFree → ∀ ⦃i n⦄, t.node? i = some n → n.status = .valid →
    Throughout (fun b older => b.hash = hash → b.Accepted params verify older) (T.branch t i)
  /-- its signer was authorized by its parent -/
  signed : ∀ ⦃i n p m⦄, t.node? i = some n → n.hash = hash → n.parent = some p →
    t.node? p = some m → m.keys.contains .validating n.header.validator = true

section Plans

variable {s : Setting} {t : BlockTree} {best : BestState} {block : Block} {plan : Plan} {p : Nat}
  {parent : TreeNode} {keys : KeySets}

/-- Where no check is left out, the signer is authorized by the parent. -/
theorem Plan.Admits.signed (h : Admits s t block flags p parent keys)
    (hflags : flags.fastAdd = false) :
    parent.keys.contains .validating block.header.validator = true := by
  obtain ⟨height, hplaced⟩ := h.placed
  rw [Block.checkPlacement, hflags] at hplaced
  obtain ⟨_, -, hplaced⟩ := bind_eq_ok.1 hplaced
  obtain ⟨_, -, hplaced⟩ := bind_eq_ok.1 hplaced
  obtain ⟨_, -, hplaced⟩ := bind_eq_ok.1 hplaced
  obtain ⟨_, -, hplaced⟩ := bind_eq_ok.1 hplaced
  obtain ⟨_, hsigner, -⟩ := bind_eq_ok.1 hplaced
  obtain ⟨hauthorized, -⟩ := require_bind_eq_ok.1 hsigner
  rwa [h.node, Option.any_some] at hauthorized

/-- A plan leaves nothing out for a block whose status it changes, if all whose checks it leaves out
keep theirs. -/
theorem Plan.Adds.fastAdd_eq_false (hadds : Adds s t best block flags p parent keys plan)
    (hm : Mirror s.params s.tables t)
    (hkept : flags.fastAdd = true → plan.tree.status? hash = t.status? hash) {i : Nat}
    {n : TreeNode} (hn : plan.tree.node? i = some n) (hhash : n.hash = hash)
    (hchanged : ∀ m, t.node? i = some m → m.status ≠ n.status) : flags.fastAdd = false := by
  have hcoherent := (hm.of_plan hadds).coherent
  rcases hflags : flags.fastAdd
  · rfl
  · have hstatus := (status?_eq_some_iff hcoherent).2 ⟨i, n, hn, hhash, rfl⟩
    rw [hkept hflags] at hstatus
    obtain ⟨j, m, hm', hhash', hsame⟩ := (status?_eq_some_iff hm.coherent).1 hstatus
    obtain ⟨status, hj, -⟩ := hadds.selected.exists_status (node?_grown_of_some block p keys hm')
    obtain rfl := hcoherent.eq_of_hash_eq hj hn (hhash'.trans hhash.symm)
    exact absurd hsame (hchanged m hm')

/-- A plan keeps what is known of a block if it leaves nothing out, or leaves its status. -/
theorem Vetted.of_plan (h : Vetted hash s.params s.verify s.tables t)
    (hm : Mirror s.params s.tables t) (hadds : Adds s t best block flags p parent keys plan)
    (hkept : flags.fastAdd = true → plan.tree.status? hash = t.status? hash) :
    Vetted hash s.params s.verify (s.tables.writeAll plan.batch) plan.tree := by
  constructor
  case settled => exact h.settled.of_plan hm hadds
  case accurate =>
    intro hfree
    exact (hadds.accurate_of_collisionFree hm h.accurate hfree).2
  case accepted =>
    intro hfree i n hn hvalid b older hs hhash
    obtain ⟨haccurate, -⟩ := hadds.accurate_of_collisionFree hm h.accurate hfree
    have hold : s.tables.CollisionFree := hadds.collisionFree hm hfree
    rcases haccurate.valid_of_plan h.settled hm hadds hn hvalid hs with
      ⟨j, m, hm', hvalid', hs'⟩ | ⟨j, m, ⟨v', journal⟩, hm', hstatus, hj, hhash', hr⟩
    · exact h.accepted hold hm' hvalid' b older hs' hhash
    · -- it becomes valid now
      have hflags := hadds.fastAdd_eq_false hm hkept hj (hhash'.symm.trans hhash) fun k hk hsame => by
        rw [node?_grown_of_some block p keys hk] at hm'
        obtain rfl := Option.some.inj hm'
        cases hstatus.symm.trans hsame
      exact Or.inr ⟨_, Block.connect_of_fastAdd_eq_false hflags hr⟩
  case signed =>
    intro i n q m hn hhash hq hmq
    obtain ⟨n', hn', heq⟩ := hadds.selected.exists_of_node hn
    obtain ⟨m', hm', heq'⟩ := hadds.selected.exists_of_node hmq
    suffices hsigned : m'.keys.contains .validating n'.header.validator = true by
      rw [heq, heq']
      exact hsigned
    have hq' : n'.parent = some q := by
      rw [heq] at hq
      exact hq
    rcases node?_grown hn' with ⟨rfl, rfl⟩ | hn'
    · -- it becomes known now
      have hflags := hadds.fastAdd_eq_false hm hkept hn hhash fun k hk =>
        absurd (node?_lt hk) (Nat.lt_irrefl _)
      rw [parent_newNode hadds.admits.lt_size] at hq'
      obtain rfl := Option.some.inj hq'
      rw [node?_grown_of_some _ _ _ hadds.admits.node] at hm'
      obtain rfl := Option.some.inj hm'
      exact hadds.admits.signed hflags
    · obtain ⟨k, hk⟩ := exists_parent hn' hq'
      rw [node?_grown_of_some _ _ _ hk] at hm'
      obtain rfl := Option.some.inj hm'
      refine h.signed hn' ?_ hq' hk
      rw [← hhash, heq]

end Plans

theorem ChainState.Steps.vetted {s s' : ChainState σ} (hs : Steps P params verify flags s s')
    (hP : ∀ {b}, P b → b.Checked params verify) (hm : Mirror params s.tables s.tree)
    (h : Vetted hash params verify s.tables s.tree)
    (hkept : flags.fastAdd = true → s'.tree.status? hash = s.tree.status? hash) :
    Vetted hash params verify s'.tables s'.tree := by
  induction hs with
  | refl => exact h
  | @tail u s' hs hstep ih =>
    have hmu : Mirror params u.tables u.tree :=
      (ChainState.Steps.keepsFor (I := fun _ _ _ => True)
        (fun _ _ _ _ _ _ _ _ _ _ _ _ => trivial) hP hs hm trivial).1
    have hle := ChainState.Steps.stage_le hs hP hm hash
    have hle' := ChainState.Steps.stage_le (.single hstep) hP hmu hash
    -- what is the same at both ends is the same in between
    have hmid : flags.fastAdd = true → u.tree.status? hash = s.tree.status? hash := by
      intro hflags
      rw [hkept hflags] at hle'
      exact BlockStatus.stage_injective (Nat.le_antisymm hle' hle)
    have hu := ih hmid
    cases hstep with
    | @added block plan store hblock unknown planned committed =>
      obtain ⟨p, parent, keys, hadmits, hplan⟩ := Plan.ofBlock_eq_ok planned
      have hadds := Plan.Adds.mk (hP hblock).wellFormed unknown hadmits hplan
      rw [ChainState.tables, committed]
      exact hu.of_plan hmu hadds fun hflags => (hkept hflags).trans (hmid hflags).symm
    | refused kept =>
      rw [ChainState.tables, kept]
      exact hu

/-! ## Calls -/

/-- A call: a block that is submitted, how it is to be taken, and the time. -/
structure Call where
  /-- the block -/
  block : Block
  /-- what is left out for it -/
  flags : AddFlags
  /-- the time of the call -/
  now : Instant

namespace Chain

variable {c : Chain σ} {store store' : σ} {capacity : Nat} {lifetime : Int}

/-- The chain after some calls. -/
def run (c : Chain σ) (calls : List Call) : Chain σ :=
  calls.foldl (fun c call => (c.process call.block call.flags call.now).2) c

/-- No call with `fastAdd` changes the status of a block. -/
def Untrusted (c : Chain σ) (calls : List Call) (hash : Digest) : Prop :=
  ∀ before call after, calls = before ++ call :: after → call.flags.fastAdd = true →
    (c.run (before ++ [call])).status? hash = (c.run before).status? hash

theorem run_concat (c : Chain σ) (calls : List Call) (call : Call) :
    c.run (calls ++ [call]) =
      ((c.run calls).process call.block call.flags call.now).2 := by
  rw [run, List.foldl_append]
  rfl

theorem Untrusted.of_concat {calls : List Call} {call : Call}
    (h : c.Untrusted (calls ++ [call]) hash) :
    c.Untrusted calls hash ∧ (call.flags.fastAdd = true →
      (c.run (calls ++ [call])).status? hash = (c.run calls).status? hash) := by
  refine ⟨fun before k after hsplit => ?_, h calls call [] rfl⟩
  apply h before k (after ++ [call])
  rw [hsplit, List.append_assoc, List.cons_append]

theorem Reachable.run {allowed : AddFlags → Prop} (h : Reachable params verify allowed c)
    {calls : List Call} (hallowed : ∀ call ∈ calls, allowed call.flags) :
    Reachable params verify allowed (c.run calls) := by
  induction calls generalizing c with
  | nil => exact h
  | cons call calls ih =>
    obtain ⟨hfirst, hrest⟩ := List.forall_mem_cons.1 hallowed
    exact ih (.processed h hfirst) hrest

variable [LawfulChainStore σ]

theorem vetted_of_openStore (hempty : ChainStore.tables store = {})
    (hopen : openStore params verify (.ofLimits capacity lifetime) store = (.ok c, store')) :
    Vetted hash params verify c.tables c.tree := by
  obtain ⟨htables, hm, -⟩ := opened_on_empty hempty hopen
  rw [htables] at hm ⊢
  have hm₀ := params.mirror_genesis
  constructor
  case settled => exact params.elected_genesis.toSettled.of_mirror hm₀ hm
  case accurate => exact fun _ => params.accurate_genesis.of_mirror hm₀ hm
  case accepted =>
    intro _ i n hn hvalid
    exact ((params.verified_genesis verify).of_mirror hm₀ hm hn hvalid).imp fun _ _ h _ => h
  case signed =>
    intro i n p m hn _ hp
    obtain ⟨j, k, hk, heq⟩ := hm.exists_node hm₀ hn
    obtain ⟨-, rfl⟩ := params.node?_genesisTree.1 hk
    rcases hm₀.parents_eq hm hk hn heq with ⟨-, hroot⟩ | ⟨_, _, _, _, hnone, -⟩
    · cases hp.symm.trans hroot
    · cases hnone

/-- What was checked of a block that calls with `fastAdd` left alone. -/
theorem vetted_run (hempty : ChainStore.tables store = {})
    (hopen : openStore params verify (.ofLimits capacity lifetime) store = (.ok c, store'))
    {calls : List Call} (huntrusted : c.Untrusted calls hash) :
    Vetted hash params verify (c.run calls).tables (c.run calls).tree := by
  induction calls using List.reverseRecOn with
  | nil => exact vetted_of_openStore hempty hopen
  | append_singleton calls call ih =>
    obtain ⟨hbefore, hlast⟩ := huntrusted.of_concat
    have hopened : c.Reachable params verify fun _ => True := .opened hempty hopen
    have hreached : Reachable params verify (fun _ => True) (c.run calls) :=
      hopened.run fun _ _ => trivial
    have hsteps := hreached.steps call.block call.flags call.now
    rw [run_concat] at hlast ⊢
    exact hsteps.vetted id hreached.mirror (ih hbefore) hlast

/-- A block of the main chain was checked in full if no call with `fastAdd` changed its status: the
rules accept it over what its ancestors left to spend, and its parent authorizes its signer. -/
theorem checked_of_untrusted (hempty : ChainStore.tables store = {})
    (hopen : openStore params verify (.ofLimits capacity lifetime) store = (.ok c, store'))
    (calls : List Call) (hfree : (c.run calls).tables.CollisionFree) {height : Nat} {b : Block}
    (hb : (c.run calls).mainBlocks[height]? = some b) (hpos : 0 < height)
    (huntrusted : c.Untrusted calls b.hash) :
    (∃ v journals r,
      replay 0 ⟨∅, ∅⟩ ((c.run calls).mainBlocks.take height) = (.ok (), v, journals) ∧
      b.connect height params v verify {} = .ok r) ∧
    ∃ parent, (c.run calls).tree.findNode? b.header.previous = some parent ∧
      parent.keys.contains .validating b.header.validator = true := by
  have hvetted := vetted_run hempty hopen huntrusted
  have hopened : c.Reachable params verify fun _ => True := .opened hempty hopen
  have hreached : Reachable params verify (fun _ => True) (c.run calls) :=
    hopened.run fun _ _ => trivial
  have hm := hreached.mirror
  obtain ⟨tip, n, htip, hn, -⟩ := hm.tip
  rw [mainBlocks_eq hm htip] at hb ⊢
  obtain ⟨older, hs, rfl⟩ := getElem?_reverse_line.1 hb
  have hfits := (hvetted.accurate hfree).fits htip
  constructor
  · have htake : ((c.run calls).tables.branch (c.run calls).tree tip).reverse.take older.length =
        older.reverse := by
      obtain ⟨newer, hline⟩ := hs
      rw [← hline, List.reverse_append, List.reverse_cons, List.append_assoc]
      exact List.take_left' older.length_reverse
    have hbelow := hfits.of_suffix ((List.suffix_cons ..).trans hs)
    have hreplay := replay_reverse fun a rest hs' => (hbelow a rest hs').connects
    have hvalid := hvetted.settled.main_valid htip (mem_lineage_self (node?_lt hn)) hn
    rw [htake]
    rcases hvetted.accepted hfree hn hvalid b older hs rfl with ⟨rfl, -⟩ | ⟨r, hr⟩
    · cases hpos
    · exact ⟨_, _, r, hreplay, hr⟩
  · obtain ⟨j, k, -, hk, hstored, -, hheight⟩ := hm.exists_of_suffix hs
    obtain ⟨hheader, hhash⟩ := hm.block_hash hk hstored
    rcases hp : k.parent with _ | p
    · rw [← hheight, (hm.coherent.of_root hk hp).1] at hpos
      cases hpos
    · obtain ⟨m, hmp⟩ := exists_parent hk hp
      rw [hheader]
      refine ⟨m, ?_, hvetted.signed hk hhash.symm hp hmp⟩
      rw [hm.linked hk hp hmp]
      exact hm.coherent.findNode?_eq_some hmp

end Chain

/-! ## Trust that is passed on -/

namespace Sample

/-- A block over the first that pays out more than there is, signed by nobody. -/
def overpaid : Block :=
  { block first.header [{ coinbase 2 4 with outputs := [⟨5100000000, .payToKey key⟩] }] with
    header.validator := .zero }

/-- The first block is vouched for. -/
def vouch : Call := ⟨first, { fastAdd := true }, now⟩

/-- Another block is submitted as usual. -/
def offer (block : Block) : Call := ⟨block, {}, now⟩

/-- Whether the block at a height of the main chain fails the rules, over what a replay of the blocks
below it leaves, and was signed without authority. -/
def isUnsound (block : Block) (height : Nat) (c : Chain MemoryStore) : Bool :=
  match replay 0 ⟨∅, ∅⟩ (c.mainBlocks.take height), c.tree.findNode? block.header.previous with
  | (.ok (), v, _), some parent =>
    c.mainBlocks[height]? = some block &&
      !(block.connect height network v trusting {}).isOk &&
      !parent.keys.contains .validating block.header.validator
  | _, _ => false

/-- A block is checked if it comes after the one that is vouched for. If it waited for it, it is
not. -/
theorem ends_vouched :
    ((after? network now []).any fun c =>
      decide ((c.run [vouch, offer second]).mainBlocks[2]? = some second) &&
        decide ((c.run [vouch]).status? second.hash = c.status? second.hash) &&
        decide (storedHashes (c.run [vouch, offer second]).tables).Nodup) = true ∧
    ((after? network now []).any fun c =>
      isUnsound overpaid 2 (c.run [offer overpaid, vouch])) = true := by
  decide +kernel

end Sample

namespace Chain

/-- The second block was checked though the first one was not. -/
theorem checked_after_vouching : ∃ (c : Chain MemoryStore) (v : CoinView) (journals : List Journal)
    (r : CoinView × Journal),
    replay 0 ⟨∅, ∅⟩ ((c.run [Sample.vouch, Sample.offer Sample.second]).mainBlocks.take 2) =
      (.ok (), v, journals) ∧
    Sample.second.connect 2 Sample.network v Sample.trusting {} = .ok r := by
  obtain ⟨c, store, hopen, hends⟩ := Sample.exists_opened Sample.ends_vouched.1
  simp only [Bool.and_eq_true, decide_eq_true_eq] at hends
  obtain ⟨⟨hmain, hstatus⟩, hnodup⟩ := hends
  have huntrusted : c.Untrusted [Sample.vouch, Sample.offer Sample.second]
      Sample.second.hash := by
    rintro (_ | ⟨first, _ | ⟨second, before⟩⟩) call after hsplit hflags
    · obtain ⟨rfl, -⟩ := List.cons.inj hsplit
      exact hstatus
    · obtain ⟨-, hsplit⟩ := List.cons.inj hsplit
      obtain ⟨rfl, -⟩ := List.cons.inj hsplit
      cases hflags
    · obtain ⟨-, hsplit⟩ := List.cons.inj hsplit
      obtain ⟨-, hsplit⟩ := List.cons.inj hsplit
      simp at hsplit
  obtain ⟨⟨v, journals, r, hreplay, hr⟩, -⟩ := checked_of_untrusted rfl hopen _
    (Sample.collisionFree_of_nodup hnodup) hmain Nat.two_pos huntrusted
  exact ⟨c, v, journals, r, hreplay, hr⟩

/-- A block that waits for one that is vouched for comes to be on the main chain although it fails
the rules, and although its signer has no authority. -/
theorem trust_passes_on : ∃ (c : Chain MemoryStore) (store : MemoryStore) (v : CoinView)
    (journals : List Journal) (parent : TreeNode),
    openStore Sample.network Sample.trusting (.ofLimits 4 3600) {} = (.ok c, store) ∧
    (c.run [Sample.offer Sample.overpaid, Sample.vouch]).mainBlocks[2]? = some Sample.overpaid ∧
    replay 0 ⟨∅, ∅⟩ ((c.run [Sample.offer Sample.overpaid, Sample.vouch]).mainBlocks.take 2) =
      (.ok (), v, journals) ∧
    (∀ r, Sample.overpaid.connect 2 Sample.network v Sample.trusting {} ≠ .ok r) ∧
    (c.run [Sample.offer Sample.overpaid, Sample.vouch]).tree.findNode?
      Sample.overpaid.header.previous = some parent ∧
    parent.keys.contains .validating Sample.overpaid.header.validator = false := by
  obtain ⟨c, store, hopen, hends⟩ := Sample.exists_opened Sample.ends_vouched.2
  rw [Sample.isUnsound] at hends
  split at hends
  · next v journals parent hreplay hparent =>
    simp only [Bool.and_eq_true, decide_eq_true_eq, Bool.not_eq_true'] at hends
    obtain ⟨⟨hmain, hfails⟩, hunauthorized⟩ := hends
    refine ⟨c, store, v, journals, parent, hopen, hmain, hreplay, ?_, hparent, hunauthorized⟩
    intro r hr
    rw [hr] at hfails
    cases hfails
  · cases hends

end Chain

end PermissionedLedger
