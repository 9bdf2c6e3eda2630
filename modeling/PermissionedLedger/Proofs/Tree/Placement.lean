import Mathlib
import PermissionedLedger.Proofs.Tree.Branches
import PermissionedLedger.Rules.Placement

/-!
# Places in a tree

What the rules ask of a block under a parent depends on the headers from the parent
down to the root (`headers`), on the keys in force after it, and on the height of the
latest checkpoint (`checkPlacement_congr_of_checkpoint`). Where there are no checkpoints,
it depends on nothing else of the tree (`checkPlacement_congr`): not on the main chain,
although ancestors are looked up there, and not on other branches.
-/

namespace PermissionedLedger

namespace BlockTree

variable {t t' : BlockTree} {i i' : Nat} {n n' : TreeNode} {params : Params}

/-- The headers of a node and of its ancestors. -/
def headers (t : BlockTree) (i : Nat) : List Header := (t.lineageNodes i).map (·.header)

theorem getElem?_filterMap_of_isSome {α β : Type} {f : α → Option β} {as : List α}
    (h : ∀ a ∈ as, ∃ b, f a = some b) (k : Nat) : (as.filterMap f)[k]? = as[k]?.bind f := by
  induction as generalizing k with
  | nil => rfl
  | cons a as ih =>
    obtain ⟨b, hb⟩ := h a (List.mem_cons_self ..)
    rw [List.filterMap_cons, hb]
    cases k with
    | zero => exact hb.symm
    | succ k => exact ih (fun a' ha' => h a' (List.mem_cons_of_mem _ ha')) k

/-- Read from the root, the headers are those of the ancestors at all heights. -/
theorem getElem?_reverse_headers (ht : t.Coherent) (hm : t.MainPath) (i k : Nat) :
    (t.headers i).reverse[k]? = ((t.ancestor? i k).bind t.node?).map (·.header) := by
  rw [headers, lineageNodes, ← List.map_reverse, ← List.filterMap_reverse, List.getElem?_map,
    getElem?_filterMap_of_isSome, ancestor?_eq ht hm]
  intro j hj
  exact exists_node (lt_size_of_mem_lineage (List.mem_reverse.1 hj))

theorem headers_eq_cons (hn : t.node? i = some n) :
    ∃ rest, t.headers i = n.header :: rest := by
  obtain ⟨rest, hrest⟩ := lineage_eq_cons hn
  refine ⟨(rest.filterMap t.node?).map (·.header), ?_⟩
  rw [headers, lineageNodes, hrest, List.filterMap_cons, hn, List.map_cons]

theorem length_headers (ht : t.Coherent) (hn : t.node? i = some n) :
    (t.headers i).length = n.height + 1 := by
  rw [← ht.length_lineage hn, headers, List.length_map, lineageNodes,
    List.length_filterMap_eq_countP, List.countP_eq_length]
  intro j hj
  obtain ⟨m, hm⟩ := exists_node (lt_size_of_mem_lineage hj)
  rw [hm]
  rfl

/-- The target that is required after a node, in terms of headers. -/
theorem nextBits_eq (ht : t.Coherent) (hm : t.MainPath) (schedule : Work.Schedule)
    (hn : t.node? i = some n) :
    t.nextBits schedule i =
      if schedule.isRetargetHeight (n.height + 1) then
        schedule.retarget n.header.bits (n.header.time.secondsSince
          (((t.headers i).reverse[n.height + 1 - schedule.interval]?).getD n.header).time)
      else n.header.bits := by
  rw [nextBits, hn, getElem?_reverse_headers ht hm, Option.getD_map (·.header) n]

theorem medianTime_eq (i count : Nat) :
    t.medianTime i count = median (((t.headers i).take (max count 1)).map (·.time)) := by
  rw [medianTime, headers, ← List.map_take, List.map_map]
  rfl

end BlockTree

open BlockTree

variable {t t' : BlockTree} {p p' : Nat} {n n' : TreeNode} {params : Params} {b : Block}
  {flags : AddFlags}

theorem latestCheckpoint?_of_nil (hnone : params.checkpoints = []) (t : BlockTree) :
    t.latestCheckpoint? params = none := by
  rw [latestCheckpoint?, hnone]
  rfl

namespace Block

theorem checkBounds_of_nil (hnone : params.checkpoints = []) (b : Block) (t : BlockTree)
    (flags : AddFlags) : b.checkBounds params t flags = .ok () := by
  rw [checkBounds, latestCheckpoint?_of_nil hnone]
  rfl

theorem checkCheckpoints_congr
    (h : (t.latestCheckpoint? params).map t.height = (t'.latestCheckpoint? params).map t'.height)
    (b : Block) (height : Nat) :
    b.checkCheckpoints params t height = b.checkCheckpoints params t' height := by
  rw [checkCheckpoints, checkCheckpoints]
  rcases hc : t.latestCheckpoint? params with _ | c <;>
    rcases hc' : t'.latestCheckpoint? params with _ | c' <;> rw [hc, hc'] at h
  · cases h
  · cases h
  · simp only [Option.some.inj h]

/-- The place of a block depends on the headers and the keys at its parent, and on the height of the
latest checkpoint. -/
theorem checkPlacement_congr_of_checkpoint
    (hcheckpoint : (t.latestCheckpoint? params).map t.height =
      (t'.latestCheckpoint? params).map t'.height) (ht : t.Coherent) (hm : t.MainPath)
    (ht' : t'.Coherent) (hm' : t'.MainPath) (hn : t.node? p = some n) (hn' : t'.node? p' = some n')
    (hheaders : t.headers p = t'.headers p') (hkeys : n.keys = n'.keys) :
    b.checkPlacement params t p flags = b.checkPlacement params t' p' flags := by
  have hheight : n.height = n'.height := by
    have hlen := length_headers ht hn
    rw [hheaders, length_headers ht' hn'] at hlen
    omega
  have hheader : n.header = n'.header := by
    obtain ⟨rest, hrest⟩ := headers_eq_cons hn
    obtain ⟨rest', hrest'⟩ := headers_eq_cons hn'
    rw [hrest, hrest'] at hheaders
    exact (List.cons.inj hheaders).1
  have hsame : t.height p = t'.height p' := by
    rw [BlockTree.height, BlockTree.height, hn, hn', Option.map_some, Option.map_some, hheight]
  have hbits : t.nextBits params.pow p = t'.nextBits params.pow p' := by
    rw [nextBits_eq ht hm _ hn, nextBits_eq ht' hm' _ hn', hheaders, hheight, hheader]
  have hmedian : t.medianTime p params.medianTimeBlocks =
      t'.medianTime p' params.medianTimeBlocks := by
    rw [medianTime_eq, medianTime_eq, hheaders]
  have hsigners : (t.lineageNodes p).map (·.header.validator) =
      (t'.lineageNodes p').map (·.header.validator) := by
    have hmap := congrArg (List.map (·.validator)) hheaders
    rw [headers, headers, List.map_map, List.map_map] at hmap
    exact hmap
  rw [checkPlacement, checkPlacement, checkHeader, checkHeader, checkSigner, checkSigner, hsame,
    hbits, hmedian, hsigners, checkCheckpoints_congr hcheckpoint, hn, hn', Option.any_some,
    Option.any_some, hkeys]

/-- Without checkpoints, the place of a block depends on the headers and the keys at its parent. -/
theorem checkPlacement_congr (hnone : params.checkpoints = []) (ht : t.Coherent) (hm : t.MainPath)
    (ht' : t'.Coherent) (hm' : t'.MainPath) (hn : t.node? p = some n) (hn' : t'.node? p' = some n')
    (hheaders : t.headers p = t'.headers p') (hkeys : n.keys = n'.keys) :
    b.checkPlacement params t p flags = b.checkPlacement params t' p' flags := by
  refine checkPlacement_congr_of_checkpoint ?_ ht hm ht' hm' hn hn' hheaders hkeys
  rw [latestCheckpoint?_of_nil hnone, latestCheckpoint?_of_nil hnone]
  rfl

end Block

end PermissionedLedger
