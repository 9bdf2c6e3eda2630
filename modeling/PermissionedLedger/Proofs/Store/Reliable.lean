import Mathlib
import PermissionedLedger.Proofs.Store.Batches

/-!
# Stores that never fail

A store is *reliable* (`ReliableChainStore`) if it commits every batch whose writes can
be done one after another. That fails only for a batch that sets the status of an
unknown node, so it is enough that the nodes of all statuses are stored
(`Tables.tryWriteAll_eq_ok`).

Both stores here are reliable, the one that looks first and the one that tries: they find
the same write to fail (`tryWriteAll_eq_firstUnknown?`).
-/

namespace PermissionedLedger

/-- A store that commits all batches that can be written. -/
class ReliableChainStore (σ : Type) [ChainStore σ] : Prop extends LawfulChainStore σ where
  /-- what can be written is committed -/
  commits : ∀ (s : σ) (batch : Batch) (T : Tables),
    (ChainStore.tables s).tryWriteAll batch = .ok T → (ChainStore.commit s batch).1 = .ok ()

namespace Tables

variable {T T' : Tables} {batch : Batch} {w : Write}

theorem mem_nodes_write_putNode {node : NodeRecord} {hash : Digest} :
    hash ∈ (T.write (.putNode node)).nodes ↔ hash = node.hash ∨ hash ∈ T.nodes := by
  rw [write, Std.ExtTreeMap.mem_insert, Std.LawfulEqCmp.compare_eq_iff_eq, eq_comm]

theorem mem_nodes_write_setStatus {hash hash' : Digest} {status : BlockStatus} :
    hash' ∈ (T.write (.setStatus hash status)).nodes ↔ hash' ∈ T.nodes := by
  rw [Std.ExtTreeMap.mem_iff_isSome_getElem?, Std.ExtTreeMap.mem_iff_isSome_getElem?,
    nodes_write_setStatus, Option.isSome_map]

/-- Nodes are never removed. -/
theorem mem_nodes_write (w : Write) {hash : Digest} (h : hash ∈ T.nodes) :
    hash ∈ (T.write w).nodes := by
  cases w with
  | putNode node => exact mem_nodes_write_putNode.2 (Or.inr h)
  | setStatus hash' status => exact mem_nodes_write_setStatus.2 h
  | _ => exact h

theorem tryWrite_eq_ok (h : ∀ hash status, w = .setStatus hash status → hash ∈ T.nodes) :
    T.tryWrite w = .ok (T.write w) := by
  cases w with
  | setStatus hash status =>
    simp only [tryWrite]
    rw [if_pos (h hash status rfl)]
  | _ => rfl

/-- A batch can be written if the nodes of all statuses are stored. -/
theorem tryWriteAll_eq_ok (h : ∀ hash status, .setStatus hash status ∈ batch → hash ∈ T.nodes) :
    T.tryWriteAll batch = .ok (T.writeAll batch) := by
  induction batch generalizing T with
  | nil => rfl
  | cons w batch ih =>
    have hw : T.tryWrite w = .ok (T.write w) := by
      refine tryWrite_eq_ok ?_
      rintro hash status rfl
      exact h hash status (List.mem_cons_self ..)
    rw [tryWriteAll, hw]
    exact ih fun hash status hin =>
      mem_nodes_write w (h hash status (List.mem_cons_of_mem _ hin))

theorem tryWriteAll_append_eq_bind (T : Tables) (batch more : Batch) :
    T.tryWriteAll (batch ++ more) = (T.tryWriteAll batch).bind (·.tryWriteAll more) := by
  induction batch generalizing T with
  | nil => rfl
  | cons w batch ih =>
    rw [List.cons_append, tryWriteAll, tryWriteAll]
    rcases T.tryWrite w with e | next
    · rfl
    · exact ih next

theorem tryWriteAll_append {more : Batch} (h : T.tryWriteAll batch = .ok T') :
    T.tryWriteAll (batch ++ more) = T'.tryWriteAll more := by
  rw [tryWriteAll_append_eq_bind, h]
  rfl

/-- Looking first finds the write at which trying ends. `T'` is what the earlier writes made of
`T`. -/
theorem tryWriteAll_eq_firstUnknown? {earlier : List Digest}
    (hnodes : ∀ hash, hash ∈ T'.nodes ↔ hash ∈ earlier ∨ hash ∈ T.nodes) :
    T'.tryWriteAll batch =
      match T.firstUnknown? earlier batch with
      | some hash => .error (.nodeNotFound hash)
      | none => .ok (T'.writeAll batch) := by
  induction batch generalizing T' earlier with
  | nil => rfl
  | cons w batch ih =>
    cases w with
    | putNode node =>
      refine ih fun hash => ?_
      rw [mem_nodes_write_putNode, hnodes, List.mem_cons, or_assoc]
    | setStatus hash status =>
      rw [tryWriteAll, tryWrite, firstUnknown?]
      by_cases hknown : hash ∈ T'.nodes
      · rw [if_pos hknown, if_pos ((hnodes hash).1 hknown)]
        exact ih fun hash' => mem_nodes_write_setStatus.trans (hnodes hash')
      · rw [if_neg hknown, if_neg (mt (hnodes hash).2 hknown)]
    | _ => exact ih hnodes

/-- What can be written has no status of an unknown node. -/
theorem firstUnknown?_eq_none (h : T.tryWriteAll batch = .ok T') :
    T.firstUnknown? [] batch = none := by
  have hnil : ∀ hash, hash ∈ T.nodes ↔ hash ∈ [] ∨ hash ∈ T.nodes := fun hash =>
    (or_iff_right List.not_mem_nil).symm
  rw [tryWriteAll_eq_firstUnknown? hnil] at h
  split at h
  · cases h
  · next heq => exact heq

end Tables

instance : ReliableChainStore MemoryStore where
  commits s batch T h := by
    change s.tables.tryWriteAll batch = _ at h
    change (s.commit batch).1 = _
    rw [MemoryStore.commit, Tables.firstUnknown?_eq_none h]

instance : ReliableChainStore PersistentStore where
  commits s batch T h := by
    change s.tables.tryWriteAll batch = _ at h
    change (s.commit batch).1 = _
    rw [PersistentStore.commit, h]

end PermissionedLedger
