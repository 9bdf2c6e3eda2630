import Mathlib
import PermissionedLedger.Proofs.Rules.WellFormed
import PermissionedLedger.Proofs.Time.Order
import PermissionedLedger.Proofs.Tree.Queries

/-!
# Nodes that the rules placed

A node is *placed* (`BlockTree.Placed`) if its block passed the rules for its place when it
was added, and none of them was waived. The tree may have been another one then: the tip
has moved since, blocks have come, and others were taken back. But the parent had the
ancestors that it has now, and what the rules ask of the time of a block
(`Placed.median_lt`) and of its signer (`Placed.signer_check`) depends on these alone.

Nothing that happens to a tree changes that a node was placed, and where no block was
added without these checks, all nodes are placed (`Grown.placed`).
-/

namespace PermissionedLedger

open BlockTree

open Time (Instant)

variable {params : Params} {t t' : BlockTree} {b : Block} {flags : AddFlags} {i j p height : Nat}
  {n : TreeNode}

/-! ## Placement -/

/-- Where nothing is waived, the place of a block is allowed only if its header and its signer
are. -/
theorem Block.parts_of_checkPlacement (h : b.checkPlacement params t p flags = .ok height)
    (hflags : flags.fastAdd = false) :
    b.checkHeader params t p = .ok () ∧ b.checkSigner params t p (t.height p + 1) = .ok () := by
  rw [Block.checkPlacement, hflags] at h
  obtain ⟨_, -, h⟩ := bind_eq_ok.1 h
  obtain ⟨_, hheader, h⟩ := bind_eq_ok.1 h
  obtain ⟨_, -, h⟩ := bind_eq_ok.1 h
  obtain ⟨_, -, h⟩ := bind_eq_ok.1 h
  obtain ⟨_, hsigner, -⟩ := bind_eq_ok.1 h
  exact ⟨hheader, hsigner⟩

namespace BlockTree

/-- The signers of a node and of its ancestors. -/
def signers (t : BlockTree) (i : Nat) : List PublicKey := (t.headers i).map (·.validator)

/-- The block of a node passed the rules for its place, with none of them waived, in a tree where
its parent had the same ancestors. A root has no place that could be checked. -/
def Placed (params : Params) (t : BlockTree) (i : Nat) : Prop :=
  ∀ ⦃n p⦄, t.node? i = some n → n.parent = some p →
    ∃ (past : BlockTree) (q : Nat) (b : Block) (flags : AddFlags) (height : Nat),
      past.Coherent ∧ past.headers q = t.headers p ∧ b.header = n.header ∧
      flags.fastAdd = false ∧ b.checkPlacement params past q flags = .ok height

theorem headers_child (hn : t.node? i = some n) (hp : n.parent = some p) :
    t.headers i = n.header :: t.headers p := by
  rw [headers, headers, lineageNodes, lineageNodes, lineage_child hn hp, List.filterMap_cons, hn]
  rfl

/-- A node with headers is known, and has one for itself and each ancestor. -/
theorem length_headers_eq (ht : t.Coherent) (h : t.headers i ≠ []) :
    (t.headers i).length = t.height i + 1 := by
  rcases hn : t.node? i with _ | n
  · rw [headers, lineageNodes, lineage_of_none hn] at h
    exact absurd rfl h
  · rw [length_headers ht hn, height_eq hn]

/-! ## What the checks say -/

namespace Placed

/-- A placed block is later than the median of its ancestors. -/
theorem median_lt (h : t.Placed params i) (hn : t.node? i = some n) (hp : n.parent = some p) :
    t.medianTime p params.medianTimeBlocks < n.header.time := by
  obtain ⟨past, q, b, flags, height, -, hheaders, hheader, hflags, hcheck⟩ := h hn hp
  obtain ⟨htime, -⟩ := Block.parts_of_checkPlacement hcheck hflags
  rw [Block.checkHeader] at htime
  obtain ⟨-, hlater⟩ := require_bind_eq_ok.1 htime
  rw [require_eq_ok, medianTime_eq, hheaders, hheader] at hlater
  rw [medianTime_eq]
  exact hlater

/-- The signer of a placed block is within the limits of the policy. -/
theorem signer_check (h : t.Placed params i) {policy : SignerPolicy}
    (hpolicy : params.signerPolicy = some policy) (hn : t.node? i = some n)
    (hp : n.parent = some p) :
    policy.check (t.signers p) n.header.validator (t.signers p).length = .ok () := by
  obtain ⟨past, q, b, flags, height, hpast, hheaders, hheader, hflags, hcheck⟩ := h hn hp
  obtain ⟨-, hsigner⟩ := Block.parts_of_checkPlacement hcheck hflags
  obtain ⟨m, hm⟩ := exists_parent hn hp
  have hknown : past.headers q ≠ [] := by
    obtain ⟨rest, hrest⟩ := headers_eq_cons hm
    rw [hheaders, hrest]
    exact List.cons_ne_nil _ _
  have hlen : (t.signers p).length = past.height q + 1 := by
    rw [signers, List.length_map, ← hheaders, length_headers_eq hpast hknown]
  have hkeys : (past.lineageNodes q).map (·.header.validator) = t.signers p := by
    rw [signers, ← hheaders, headers, List.map_map]
    rfl
  rw [Block.checkSigner] at hsigner
  obtain ⟨-, hlimits⟩ := require_bind_eq_ok.1 hsigner
  rw [hpolicy, hkeys, hheader] at hlimits
  rw [hlen]
  exact hlimits

/-! ## What happens later -/

/-- It depends on the header of a node and on its ancestors whether it is placed, not on its
position. -/
theorem of_same (t : BlockTree) (hsame : ∀ n' p', t'.node? j = some n' → n'.parent = some p' →
    ∃ i n p, t.Placed params i ∧ t.node? i = some n ∧ n.parent = some p ∧
      n.header = n'.header ∧ t.headers p = t'.headers p') : t'.Placed params j := by
  intro n' p' hn' hp'
  obtain ⟨i, n, p, h, hn, hp, hheader, hheaders⟩ := hsame n' p' hn' hp'
  obtain ⟨past, q, b, flags, height, hpast, hpath, hblock, hrest⟩ := h hn hp
  exact ⟨past, q, b, flags, height, hpast, hpath.trans hheaders, hblock.trans hheader, hrest⟩

theorem insert (h : t.Placed params i) (hi : i < t.size) (header : Header) (parent : Option Nat)
    (status : BlockStatus) (keys : KeySets) :
    (t.insert header parent status keys).Placed params i := by
  refine of_same t fun n p hn hp => ?_
  rw [node?_insert_of_lt hi] at hn
  have hlt := parent_lt_of_node? hn hp
  exact ⟨i, n, p, h, hn, hp, rfl, (headers_insert_of_lt (Nat.lt_trans hlt hi)).symm⟩

theorem removeNewest (h : t.Placed params i) (j : Nat) : (t.removeNewest j).Placed params i := by
  by_cases hlast : j + 1 = t.size ∧ j ∉ t.main
  · refine of_same t fun n p hn hp => ?_
    obtain ⟨hn, hlt⟩ := node?_of_removeNewest hlast hn
    have hbefore := parent_lt_of_node? hn hp
    exact ⟨i, n, p, h, hn, hp, rfl, (headers_removeNewest hlast (Nat.lt_trans hbefore hlt)).symm⟩
  · rw [BlockTree.removeNewest, if_neg hlast]
    exact h

theorem setStatuses (h : t.Placed params i) (ids : List Nat) (status : BlockStatus) :
    (t.setStatuses ids status).Placed params i := by
  refine of_same t fun n p hn hp => ?_
  obtain ⟨m, hm, heq⟩ := exists_of_node?_setStatuses hn
  rw [heq] at hp
  exact ⟨i, m, p, h, hm, hp, by rw [heq], (headers_setStatuses ids status p).symm⟩

theorem setTip (h : t.Placed params i) (tip : Nat) : (t.setTip tip).Placed params i :=
  of_same t fun n p hn hp => ⟨i, n, p, h, hn, hp, rfl, (headers_setTip tip p).symm⟩

/-- A block whose place was checked is placed when it is added. -/
theorem of_check (ht : t.Coherent) (hp : p < t.size) (hflags : flags.fastAdd = false)
    (hcheck : b.checkPlacement params t p flags = .ok height) (status : BlockStatus)
    (keys : KeySets) : (t.insert b.header (some p) status keys).Placed params t.size := by
  intro n q hn hq
  obtain rfl := Option.some.inj (node?_insert_size.symm.trans hn)
  obtain ⟨heq, -⟩ := parent_child_eq_some.1 hq
  obtain rfl := Option.some.inj heq
  exact ⟨t, p, b, flags, height, ht, (headers_insert_of_lt hp).symm, rfl, hflags, hcheck⟩

theorem of_root {header : Header} {status : BlockStatus} {keys : KeySets} :
    (t.insert header none status keys).Placed params t.size := by
  intro n q hn hq
  obtain rfl := Option.some.inj (node?_insert_size.symm.trans hn)
  cases hq

end Placed

/-- The trees to which all blocks but roots are added after the rules for their place were checked,
with none of them waived. -/
inductive Grown (params : Params) : BlockTree → Prop
  | empty : Grown params {}
  | root {t : BlockTree} {header : Header} {status : BlockStatus} {keys : KeySets}
      (grown : Grown params t) (new : t.find? header.hash = none) :
      Grown params (t.insert header none status keys)
  | child {t : BlockTree} {b : Block} {p height : Nat} {flags : AddFlags} {status : BlockStatus}
      {keys : KeySets} (grown : Grown params t) (new : t.find? b.header.hash = none)
      (known : p < t.size) (full : flags.fastAdd = false)
      (checked : b.checkPlacement params t p flags = .ok height) :
      Grown params (t.insert b.header (some p) status keys)
  | removeNewest {t : BlockTree} (grown : Grown params t) (i : Nat) :
      Grown params (t.removeNewest i)
  | setStatus {t : BlockTree} (grown : Grown params t) (i : Nat) (status : BlockStatus) :
      Grown params (t.setStatus i status)
  | setTip {t : BlockTree} {i : Nat} (grown : Grown params t) (known : i < t.size) :
      Grown params (t.setTip i)

theorem Grown.built (h : Grown params t) : t.Built := by
  induction h with
  | empty => exact .empty
  | root _ new ih => exact .insert ih new fun _ h => nomatch h
  | child _ new known _ _ ih => exact .insert ih new fun _ h => Option.some.inj h ▸ known
  | removeNewest _ i ih => exact .removeNewest ih i
  | setStatus _ i status ih => exact .setStatus ih i status
  | setTip _ known ih => exact .setTip ih known

/-- Where the nodes of a tree are placed, and the one that is added is too, all are. -/
theorem placed_insert {header : Header} {parent : Option Nat} {status : BlockStatus}
    {keys : KeySets} (h : ∀ i, t.Placed params i)
    (hnew : (t.insert header parent status keys).Placed params t.size) (i : Nat) :
    (t.insert header parent status keys).Placed params i := by
  rcases Nat.lt_trichotomy i t.size with hlt | rfl | hgt
  · exact (h i).insert hlt _ _ _ _
  · exact hnew
  · intro n p hn
    rw [node?_insert, if_neg (Nat.ne_of_gt hgt)] at hn
    exact absurd (node?_lt hn) (Nat.lt_asymm hgt)

/-- All nodes of a tree that grew by checked blocks are placed. -/
theorem Grown.placed (h : Grown params t) (i : Nat) : t.Placed params i := by
  induction h generalizing i with
  | empty => exact fun n p hn => nomatch hn
  | root _ _ ih => exact placed_insert ih Placed.of_root i
  | child grown _ known full checked ih =>
    exact placed_insert ih (.of_check grown.built.invariant.1 known full checked _ _) i
  | removeNewest _ j ih => exact (ih i).removeNewest j
  | setStatus _ j status ih => exact (ih i).setStatuses [j] status
  | setTip _ _ ih => exact (ih i).setTip _

/-! ## A branch -/

namespace BranchSample

/-- Of two blocks a key may sign one, and the median time is that of three. -/
def network : Params :=
  { Network.regtestParams with signerPolicy := some ⟨2, 50, 1⟩, medianTimeBlocks := 3 }

/-- Two keys that sign blocks. -/
def keys : KeySets := .ofLists [] [] [] [.ofNat 1, .ofNat 2]

/-- A block at a height, made some seconds after the start of time. -/
def block (height : Nat) (seconds : Int) (key : PublicKey) : Block where
  header :=
    { ForkSample.header 0 with
      time := Instant.epoch.addSeconds seconds, validator := key }
  transactions :=
    [{ version := 1
       inputs := [⟨.null, .coinbase (Bytes.ofNatLE 8 height), finalSequence⟩]
       outputs := []
       lockTime := 0 }]

/-- The median of times, in a form that can be evaluated. -/
def insertionMedian (times : List Instant) : Instant :=
  ((times.insertionSort (· ≤ ·))[times.length / 2]?).getD .epoch

theorem median_eq (times : List Instant) : median times = insertionMedian times := by
  rw [median, insertionMedian, List.length_mergeSort, List.mergeSort_eq_insertionSort]

/-- The rules for the place of a block, in a form that can be evaluated. -/
def allows (t : BlockTree) (p : Nat) (b : Block) : Prop :=
  b.checkHeight (t.height p + 1) = .ok () ∧ b.header.bits = t.nextBits network.pow p ∧
    insertionMedian (((t.headers p).take 3).map (·.time)) < b.header.time ∧
    b.checkCheckpoints network t (t.height p + 1) = .ok () ∧
    (∀ tx ∈ b.transactions, tx.isFinal (t.height p + 1) b.header.time = true) ∧
    b.checkSigner network t p (t.height p + 1) = .ok ()

instance (t : BlockTree) (p : Nat) (b : Block) : Decidable (allows t p b) :=
  inferInstanceAs (Decidable (_ ∧ _))

theorem checkPlacement_of_allows (h : allows t p b) :
    b.checkPlacement network t p {} = .ok (t.height p + 1) := by
  obtain ⟨hheight, hbits, hlater, hcheckpoints, hfinal, hsigner⟩ := h
  have hheader : b.checkHeader network t p = .ok () := by
    rw [Block.checkHeader, require_bind_eq_ok, require_eq_ok, medianTime_eq, median_eq]
    exact ⟨hbits, hlater⟩
  have hlocks : requireAll (fun tx : Transaction =>
      require (tx.isFinal (t.height p + 1) b.header.time = true)
        (PlacementFault.notFinal tx.hash (t.height p + 1))) b.transactions = .ok () :=
    requireAll_eq_ok.2 fun tx htx => require_eq_ok.2 (hfinal tx htx)
  rw [Block.checkPlacement, hheight, hheader, hcheckpoints, hsigner, hlocks]
  rfl

/-- Adds a block on top of the newest one, if it is allowed there. -/
def extend? (t : BlockTree) (made : Int × PublicKey) : Option BlockTree :=
  let b := block (t.height (t.size - 1) + 1) made.1 made.2
  if 0 < t.size ∧ t.find? b.header.hash = none ∧ allows t (t.size - 1) b then
    some (t.insert b.header (some (t.size - 1)) .valid keys)
  else none

theorem grown_extend? {made : Int × PublicKey} (h : Grown network t)
    (hextend : extend? t made = some t') : Grown network t' := by
  rw [extend?, Option.ite_none_right_eq_some] at hextend
  obtain ⟨⟨hpos, hnew, hallows⟩, hextend⟩ := hextend
  obtain rfl := Option.some.inj hextend
  exact h.child hnew (Nat.sub_lt hpos Nat.one_pos) rfl (checkPlacement_of_allows hallows)

/-- A branch of four blocks, whose times do not always go up. -/
def branch? : Option BlockTree :=
  [(600, .ofNat 2), (1200, .ofNat 1), (900, .ofNat 2)].foldlM extend?
    (({} : BlockTree).insert (block 0 0 (.ofNat 1)).header none .valid keys)

theorem grown_foldlM {made : List (Int × PublicKey)} (h : Grown network t)
    (hfold : made.foldlM extend? t = some t') : Grown network t' := by
  induction made generalizing t with
  | nil => exact Option.some.inj hfold ▸ h
  | cons first rest ih =>
    obtain ⟨next, hnext, hrest⟩ := Option.bind_eq_some_iff.1 hfold
    exact ih (grown_extend? h hnext) hrest

theorem exists_branch : ∃ t, Grown network t ∧ t.lineage 3 = [3, 2, 1, 0] ∧
    t.parent? 3 = some 2 ∧ t.signers 3 = [2, 1, 2, 1].map .ofNat ∧
    (t.headers 3).map (·.time.seconds) = [900, 1200, 600, 0] := by
  have hfound : (branch?.any fun t => t.lineage 3 = [3, 2, 1, 0] ∧ t.parent? 3 = some 2 ∧
      t.signers 3 = [2, 1, 2, 1].map .ofNat ∧
      (t.headers 3).map (·.time.seconds) = [900, 1200, 600, 0]) = true := by
    decide +kernel
  obtain ⟨t, ht, hends⟩ := (Option.any_eq_true _ _).1 hfound
  exact ⟨t, grown_foldlM (.root .empty rfl) ht, of_decide_eq_true hends⟩

end BranchSample

end BlockTree

end PermissionedLedger
