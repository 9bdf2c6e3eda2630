import Mathlib
import PermissionedLedger.Proofs.Chain.Threads
import PermissionedLedger.Proofs.Chain.Trust
import PermissionedLedger.Proofs.Rules.KeyChanges

/-!
# Keys and who may change them

The keys in force at a node are those of its parent, changed by its block
(`KeysFollow`). This holds on every branch, whichever calls led there, and whatever was
loaded anew: keys are stored only where they change, and otherwise found at an ancestor.

Signatures are not looked at in a call with `fastAdd`. A chain is followed together with
the blocks that such calls made known (`Chain.Traced`). Every other block was authorized:
its governance transactions are signed by the keys in force just before each of them
(`Chain.Traced.keys_by_authority`), which `Chain.Traced.keys_by_role` says of each thread and
role by name.
-/

namespace PermissionedLedger

open BlockTree Plan
open Time (Instant)

variable {σ : Type} [ChainStore σ] {params : Params} {verify : Verifier} {flags : AddFlags}
  {P : Block → Prop} {R : Block → KeySets → KeySets → Prop} {trusted : Digest → Prop}

/-! ## From parent to child -/

/-- Blocks relate the keys of their parents to their own. -/
def KeysFollow (R : Block → KeySets → KeySets → Prop) (T : Tables) (t : BlockTree) : Prop :=
  ∀ ⦃i n p m b⦄, t.node? i = some n → n.parent = some p → t.node? p = some m →
    T.blocks[n.hash]? = some b → R b m.keys n.keys

namespace KeysFollow

theorem genesis : KeysFollow R params.genesisTables params.genesisTree := by
  intro i n p m b hn hp
  obtain ⟨-, rfl⟩ := params.node?_genesisTree.1 hn
  cases hp

/-- A plan keeps a relation if its own block is in it. -/
theorem of_plan {s : Setting} {t : BlockTree} {best : BestState} {block : Block} {plan : Plan}
    {p : Nat} {parent : TreeNode} {keys : KeySets} (h : KeysFollow R s.tables t)
    (hm : Mirror s.params s.tables t) (hadds : Adds s t best block flags p parent keys plan)
    (hblock : R block parent.keys keys) :
    KeysFollow R (s.tables.writeAll plan.batch) plan.tree := by
  intro i n q m b hn hq hmq hb
  obtain ⟨n', hn', heq⟩ := hadds.selected.exists_of_node hn
  obtain ⟨m', hm', heq'⟩ := hadds.selected.exists_of_node hmq
  rw [hadds.getElem?_blocks] at hb
  have hq' : n'.parent = some q := by
    rw [heq] at hq
    exact hq
  have hhash : n.hash = n'.hash := by rw [heq]
  have hfollows : R b m'.keys n'.keys := by
    rcases node?_grown hn' with ⟨rfl, rfl⟩ | hold
    · rw [parent_newNode hadds.admits.lt_size] at hq'
      obtain rfl := Option.some.inj hq'
      rw [node?_grown_of_some _ _ _ hadds.admits.node] at hm'
      obtain rfl := Option.some.inj hm'
      have hnew : (newNode t block p keys).hash = block.hash := rfl
      rw [hhash, if_pos hnew] at hb
      obtain rfl := Option.some.inj hb
      exact hblock
    · obtain ⟨k, hk⟩ := exists_parent hold hq'
      rw [node?_grown_of_some _ _ _ hk] at hm'
      obtain rfl := Option.some.inj hm'
      rw [hhash, if_neg (hm.coherent.hash_ne hold hadds.unknown)] at hb
      exact h hold hq' hk hb
  rw [heq, heq']
  exact hfollows

/-- It does not depend on how the tree numbers its nodes. -/
theorem of_mirror {T : Tables} {t t' : BlockTree} (h : KeysFollow R T t) (hm : Mirror params T t)
    (hm' : Mirror params T t') : KeysFollow R T t' := by
  intro i n p m b hn hp hmp hb
  obtain ⟨j, k, hk, heq⟩ := hm'.exists_node hm hn
  rcases hm'.parents_eq hm hn hk heq.symm with ⟨hroot, -⟩ | ⟨q, l, q', l', hq, hl, hq', hl', heq'⟩
  · cases hp.symm.trans hroot
  · obtain rfl := Option.some.inj (hp.symm.trans hq)
    obtain rfl := Option.some.inj (hmp.symm.trans hl)
    rw [hm'.keys_eq hm hn hk heq.symm, hm'.keys_eq hm hmp hl' heq']
    exact h hk hq' hl' (heq ▸ hb)

end KeysFollow

theorem governs_keptByPlans {allowed : AddFlags → Prop} :
    KeptByPlans params verify allowed fun T t _ => KeysFollow Block.Governs T t := by
  intro T t best block flags plan p parent keys _ hm h _ hadds
  exact h.of_plan hm hadds (Block.governs_of_applyBlock hadds.formed hadds.admits.keys)

theorem governs_keptByLoading :
    KeptByLoading params fun T t _ => KeysFollow Block.Governs T t :=
  fun _ _ _ _ _ hm hm' _ h => h.of_mirror hm hm'

/-! ## Which blocks were trusted -/

namespace Chain

/-- A block becomes known in a call. -/
def Learns (c : Chain σ) (call : Call) (hash : Digest) : Prop :=
  c.tree.contains hash = false ∧
    (c.process call.block call.flags call.now).2.tree.contains hash = true

/-- Reachable chains, together with the digests of the blocks that became known in calls with
`fastAdd`. -/
inductive Traced (params : Params) (verify : Verifier) : (Digest → Prop) → Chain σ → Prop
  | opened {store store' : σ} {capacity : Nat} {lifetime : Int} {c : Chain σ}
      (empty : ChainStore.tables store = {})
      (opens : openStore params verify (.ofLimits capacity lifetime) store = (.ok c, store')) :
      Traced params verify (fun _ => False) c
  | processed {trusted : Digest → Prop} {c : Chain σ} (traced : Traced params verify trusted c)
      (call : Call) :
      Traced params verify
        (fun hash => trusted hash ∨ call.flags.fastAdd = true ∧ c.Learns call hash)
        (c.process call.block call.flags call.now).2
  | restarted {trusted : Digest → Prop} {c c' : Chain σ} {store' : σ} {capacity : Nat}
      {lifetime : Int} (traced : Traced params verify trusted c)
      (opens : openStore params verify (.ofLimits capacity lifetime) c.store =
        (.ok c', store')) : Traced params verify trusted c'

theorem Traced.reachable {c : Chain σ} (h : Traced params verify trusted c) :
    c.Reachable params verify fun _ => True := by
  induction h with
  | opened empty opens => exact .opened empty opens
  | processed _ _ ih => exact .processed ih trivial
  | restarted _ opens ih => exact .restarted ih opens

end Chain

/-- Within a call that began with some tree, every block is authorized that was not trusted before
and is not trusted now. -/
structure Authorizing (params : Params) (verify : Verifier) (flags : AddFlags)
    (trusted : Digest → Prop) (start : BlockTree) (T : Tables) (t : BlockTree) : Prop where
  /-- blocks stay known -/
  known : ∀ {hash}, start.contains hash = true → t.contains hash = true
  /-- what was known, or is not trusted, is authorized -/
  authorized : KeysFollow (fun b keys _ => ¬ trusted b.hash →
    (flags.fastAdd = true → start.contains b.hash = true) →
    b.Authorized verify params.signatureThreshold keys) T t

theorem authorizing_keptByPlans {start : BlockTree} :
    KeptByPlansFor P params verify flags fun T t _ =>
      Authorizing params verify flags trusted start T t := by
  intro T t best block plan p parent keys _ hm h hadds
  constructor
  case known =>
    intro hash hin
    have hold := h.known hin
    rw [BlockTree.contains, hadds.selected.find?_eq, Plan.find?_grown]
    split
    · rfl
    · exact hold
  case authorized =>
    refine h.authorized.of_plan hm hadds fun _ hstart => ?_
    rcases hflags : flags.fastAdd
    · have hkeys := hadds.admits.keys
      rw [hflags] at hkeys
      exact Block.authorized_of_applyBlock hadds.formed hkeys
    · -- a block that is trusted now is new
      have hin := h.known (hstart hflags)
      rw [BlockTree.contains, hadds.unknown] at hin
      cases hin

namespace Chain

variable [LawfulChainStore σ] {c : Chain σ}

/-- Blocks that no call with `fastAdd` made known were authorized. -/
theorem Traced.authorized (h : Traced params verify trusted c) :
    KeysFollow (fun b keys _ => ¬ trusted b.hash →
      b.Authorized verify params.signatureThreshold keys) c.tables c.tree := by
  induction h with
  | opened empty opens =>
    obtain ⟨htables, hm, -⟩ := opened_on_empty empty opens
    rw [htables] at hm ⊢
    exact KeysFollow.genesis.of_mirror params.mirror_genesis hm
  | @processed trusted c traced call ih =>
    have hreached := traced.reachable
    have hbefore : Authorizing params verify call.flags trusted c.tree c.tables c.tree :=
      ⟨fun hin => hin, fun i n p m b hn hp hmp hb hnot _ => ih hn hp hmp hb hnot⟩
    obtain ⟨hm, hafter⟩ :=
      (hreached.steps call.block call.flags call.now).keepsFor authorizing_keptByPlans id
        hreached.mirror hbefore
    intro i n p m b hn hp hmp hb hnot
    obtain ⟨hold, hnew⟩ := not_or.1 hnot
    refine hafter.authorized hn hp hmp hb hold fun hflags => ?_
    -- were it new, it would be trusted now
    rcases hstart : c.tree.contains b.hash
    · refine absurd ⟨hflags, hstart, ?_⟩ hnew
      exact hm.coherent.contains_iff.2 ⟨i, n, hn, (hm.block_hash hn hb).2.symm⟩
    · rfl
  | restarted traced opens ih =>
    have hm := traced.reachable.mirror
    obtain ⟨htables, hm', -⟩ := opened_on_store hm opens
    rw [htables]
    exact ih.of_mirror hm hm'

/-- Blocks take the keys of their parents to their own. -/
theorem Reachable.governs {allowed : AddFlags → Prop} (h : Reachable params verify allowed c) :
    KeysFollow Block.Governs c.tables c.tree :=
  (h.invariant (I := fun T t _ => KeysFollow Block.Governs T t)
    .genesis governs_keptByPlans governs_keptByLoading).2

/-- Where genesis has a key for every role that needs one, all nodes do. -/
theorem Reachable.staffed {allowed : AddFlags → Prop} (h : Reachable params verify allowed c)
    (hstaffed : params.genesisKeys.Staffed) {i : Nat} {n : TreeNode}
    (hn : c.tree.node? i = some n) : n.keys.Staffed := by
  have hm := h.mirror
  induction i, node?_lt hn using lineage_induction generalizing n with
  | root i k hk hp =>
    obtain rfl := Option.some.inj (hn.symm.trans hk)
    rw [(hm.root hn hp).2]
    exact hstaffed
  | child i k p hk hp ih =>
    obtain rfl := Option.some.inj (hn.symm.trans hk)
    obtain ⟨m, hmp⟩ := exists_parent hn hp
    obtain ⟨b, hb, -⟩ := hm.block hn
    exact (h.governs hn hp hmp hb).staffed (ih hmp)

/-- The block of a node takes the keys of the parent to those of the node, and is authorized if it
was not trusted. -/
theorem Traced.exists_governs (h : Traced params verify trusted c) {i p : Nat} {n : TreeNode}
    (hn : c.tree.node? i = some n) (hp : n.parent = some p) : ∃ m b, c.tree.node? p = some m ∧
      c.block? n.hash = some b ∧ b.Governs m.keys n.keys ∧
      (¬ trusted n.hash → b.Authorized verify params.signatureThreshold m.keys) := by
  have hm := h.reachable.mirror
  obtain ⟨m, hmp⟩ := exists_parent hn hp
  obtain ⟨b, hb, -⟩ := hm.block hn
  refine ⟨m, b, hmp, hb, h.reachable.governs hn hp hmp hb, fun hnot => ?_⟩
  rw [← (hm.block_hash hn hb).2] at hnot
  exact h.authorized hn hp hmp hb hnot

/-- Where genesis has a key for every role that needs one, all nodes do. The keys of a node are
those of its parent, changed one by one by the transactions of its block, each within what its
thread manages. If no call with `fastAdd` made the block known, then each of its governance
transactions is signed by enough keys of the role that its thread answers to, as they are just
before it. -/
theorem Traced.keys_by_authority (h : Traced params verify trusted c)
    (hstaffed : params.genesisKeys.Staffed) :
    (∀ i n, c.tree.node? i = some n → n.keys.Staffed) ∧
    (∀ i n, c.tree.node? i = some n → n.parent = none → n.keys = params.genesisKeys) ∧
    ∀ i n p, c.tree.node? i = some n → n.parent = some p → ∃ m b, c.tree.node? p = some m ∧
      c.block? n.hash = some b ∧ b.Governs m.keys n.keys ∧
      (¬ trusted n.hash → b.Authorized verify params.signatureThreshold m.keys) :=
  ⟨fun _ _ hn => h.reachable.staffed hstaffed hn,
    fun _ _ hn hroot => (h.reachable.mirror.root hn hroot).2,
    fun _ _ _ hn hp => h.exists_governs hn hp⟩

/-- The same with threads and roles by their names. There are always Root, Provisioning and
Validating keys. In a block that no call with `fastAdd` made known, Root and Provisioning keys change
only in the Root thread and with the signatures of Root keys, Issuing and Validating keys only in the
Provision thread and with those of Provisioning keys, and Issuing keys sign the Issue thread. -/
theorem Traced.keys_by_role (h : Traced params verify trusted c)
    (hroot : params.genesisKeys.root.isEmpty = false)
    (hprovisioning : params.genesisKeys.provisioning.isEmpty = false)
    (hvalidating : params.genesisKeys.validating.isEmpty = false) :
    (∀ i n, c.tree.node? i = some n → n.keys.root.isEmpty = false ∧
      n.keys.provisioning.isEmpty = false ∧ n.keys.validating.isEmpty = false) ∧
    ∀ i n p, c.tree.node? i = some n → n.parent = some p → ¬ trusted n.hash →
      ∃ m b, c.tree.node? p = some m ∧ c.block? n.hash = some b ∧
        ∀ before tx after, b.transactions = before ++ tx :: after →
          ∃ k k', m.keys.Leads (before.flatMap (·.keyChanges)) k ∧
            tx.GovernsByRole verify params.signatureThreshold k k' ∧
            k'.Leads (after.flatMap (·.keyChanges)) n.keys := by
  have hstaffed := KeySets.staffed_iff.2 ⟨hroot, hprovisioning, hvalidating⟩
  refine ⟨fun i n hn => KeySets.staffed_iff.1 (h.reachable.staffed hstaffed hn), ?_⟩
  intro i n p hn hp hnot
  obtain ⟨m, b, hm, hb, hgoverns, hauthorized⟩ := h.exists_governs hn hp
  refine ⟨m, b, hm, hb, fun before tx after hsplit => ?_⟩
  obtain ⟨k, k', hbefore, htx, hafter⟩ := hgoverns.each before tx after hsplit
  exact ⟨k, k', hbefore, htx.byRole fun thread hthread =>
    hauthorized hnot before tx after thread k hsplit hthread hbefore, hafter⟩

end Chain

/-! ## A sample run -/

namespace Sample

/-- Genesis has the keys it needs. -/
theorem staffed_network : network.genesisKeys.Staffed := by
  intro role hessential
  cases role with
  | issuing => cases hessential
  | _ => decide +kernel

/-- The key is added by the first governance transaction of the block. -/
theorem keyChanges_appointment :
    [coinbase 1 4, appointment].flatMap (·.keyChanges) = [.add .issuing key] ∧
      dismissal.continued? = some .provision := by
  decide +kernel

/-- One block is vouched for, and then another changes keys. -/
theorem ends_staffed : (after? network now []).any (fun c =>
    !(c.run [vouch]).tree.contains staffed.hash &&
      decide ((c.run [vouch, offer staffed]).block? staffed.hash = some staffed) &&
      decide (((c.run [vouch, offer staffed]).tree.findNode? staffed.hash).bind (·.parent) =
        some 0)) = true := by
  decide +kernel

end Sample

/-- In the sample the second governance transaction of a block that was not trusted is signed by the
Provisioning keys as the first has left them. -/
theorem Chain.keys_by_authority_after_vouching : ∃ (c : Chain MemoryStore)
    (trusted : Digest → Prop) (m : TreeNode) (k : KeySets),
    c.Traced Sample.network Sample.trusting trusted ∧ Sample.network.genesisKeys.Staffed ∧
    ¬ trusted Sample.staffed.hash ∧ c.tree.node? 0 = some m ∧
    m.keys.Leads [.add .issuing Sample.key] k ∧
    Sample.dismissal.SignedBy Sample.trusting Sample.network.signatureThreshold k.provisioning := by
  obtain ⟨c, store, hopen, hends⟩ := Sample.exists_opened Sample.ends_staffed
  simp only [Bool.and_eq_true, Bool.not_eq_true', decide_eq_true_eq] at hends
  obtain ⟨⟨hnew, hblock⟩, hparent⟩ := hends
  obtain ⟨hchanges, hthread⟩ := Sample.keyChanges_appointment
  have hopened : c.Traced Sample.network Sample.trusting fun _ => False := .opened rfl hopen
  have htraced := (hopened.processed Sample.vouch).processed (Sample.offer Sample.staffed)
  have hnot : ¬ ((False ∨ Sample.vouch.flags.fastAdd = true ∧
      c.Learns Sample.vouch Sample.staffed.hash) ∨
      (Sample.offer Sample.staffed).flags.fastAdd = true ∧
        (c.run [Sample.vouch]).Learns (Sample.offer Sample.staffed) Sample.staffed.hash) := by
    rintro ((hfalse | ⟨-, -, hknown⟩) | ⟨hflags, -⟩)
    · exact hfalse
    · exact absurd hnew (Bool.not_eq_false _ ▸ hknown)
    · cases hflags
  obtain ⟨n, hn, hp⟩ := Option.bind_eq_some_iff.1 hparent
  obtain ⟨i, hi, hhash⟩ := htraced.reachable.mirror.coherent.findNode?_iff.1 hn
  obtain ⟨-, -, hfollow⟩ := htraced.keys_by_authority Sample.staffed_network
  obtain ⟨m, b, hm, hb, hgoverns, hauthorized⟩ := hfollow i n 0 hi hp
  obtain rfl : b = Sample.staffed := by
    rw [hhash] at hb
    exact Option.some.inj (hb.symm.trans hblock)
  rw [hhash] at hauthorized
  obtain ⟨k, -, hleads, -⟩ := hgoverns.each [Sample.coinbase 1 4, Sample.appointment]
    Sample.dismissal [] rfl
  have hsigned := hauthorized hnot _ _ _ _ k rfl hthread hleads
  rw [hchanges] at hleads
  exact ⟨_, _, m, k, htraced, Sample.staffed_network, hnot, hm, hleads, hsigned⟩

end PermissionedLedger
