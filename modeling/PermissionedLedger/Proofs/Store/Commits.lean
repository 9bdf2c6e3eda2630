import Mathlib
import PermissionedLedger.Proofs.Store.Reliable

/-!
# What a commit does

A batch can be written if every status it sets is that of a node stored before, or put earlier in
the batch (`Tables.Writable`). Otherwise some status is the first for which that does not hold
(`Tables.FirstUnknown`). That decides what a commit does (`PersistentStore.committed`). The store
that looks first and the store that tries agree on which status it is, so both commit alike
(`MemoryStore.commit_eq`).

The contents after a batch are looked up entry by entry: the last write about an entry counts
(`Tables.Written`).
-/

namespace PermissionedLedger

/-! ## Entries -/

/-- The last that writes leave of something, or what was there before. -/
def Write.last {α : Type} (leaves : Write → Option α) (before : α) (batch : Batch) : α :=
  (batch.filterMap leaves).getLast?.getD before

namespace Write

/-- The tip that a write leaves. -/
def tip? : Write → Option (Option Digest)
  | .setTip hash => some (some hash)
  | _ => none

/-- The block that a write leaves under a digest. -/
def block? (hash : Digest) : Write → Option (Option Block)
  | .putBlock block => if hash = block.hash then some (some block) else none
  | _ => none

/-- The coin that a write leaves of an output. -/
def coin? (o : OutPoint) : Write → Option (Option Coin)
  | .putCoin o' coin => if o = o' then some (some coin) else none
  | .deleteCoin o' => if o = o' then some none else none
  | _ => none

/-- The journal that a write leaves of a block. -/
def journal? (hash : Digest) : Write → Option (Option Journal)
  | .putJournal hash' spent => if hash = hash' then some (some spent) else none
  | .deleteJournal hash' => if hash = hash' then some none else none
  | _ => none

/-- The key sets that a write leaves of a block. -/
def keys? (hash : Digest) : Write → Option (Option KeySets)
  | .putKeys hash' keys => if hash = hash' then some (some keys) else none
  | _ => none

/-- What a write makes of the node under a digest. -/
def node? (hash : Digest) (node : Option NodeRecord) : Write → Option NodeRecord
  | .putNode node' => if hash = node'.hash then some node' else node
  | .setStatus hash' status =>
    if hash = hash' then node.map fun n => { n with status } else node
  | _ => node

end Write

namespace Tables

variable {t t' : Tables} {batch : Batch} {hash : Digest}

/-- What is stored after a batch, entry by entry. -/
structure Written (t : Tables) (batch : Batch) (t' : Tables) : Prop where
  /-- the last tip counts -/
  tip : t'.tip = Write.last Write.tip? t.tip batch
  /-- the last block with a digest counts -/
  blocks (hash : Digest) : t'.blocks[hash]? = Write.last (Write.block? hash) t.blocks[hash]? batch
  /-- the last node with a digest counts, with the last status after it -/
  nodes (hash : Digest) : t'.nodes[hash]? = batch.foldl (Write.node? hash) t.nodes[hash]?
  /-- the last coin of an output or deletion of it counts -/
  coins (o : OutPoint) : t'.coins[o]? = Write.last (Write.coin? o) t.coins[o]? batch
  /-- the last journal of a block or deletion of it counts -/
  journals (hash : Digest) :
    t'.journals[hash]? = Write.last (Write.journal? hash) t.journals[hash]? batch
  /-- the last key sets of a block count -/
  keys (hash : Digest) : t'.keys[hash]? = Write.last (Write.keys? hash) t.keys[hash]? batch

/-- What single writes leave, a batch leaves as its last write does. -/
theorem writeAll_last {α : Type} {f : Tables → α} {leaves : Write → Option α}
    (h : ∀ t w, f (t.write w) = (leaves w).getD (f t)) (t : Tables) (batch : Batch) :
    f (t.writeAll batch) = Write.last leaves (f t) batch := by
  induction batch generalizing t with
  | nil => rfl
  | cons w batch ih =>
    rw [writeAll_cons, ih, h, Write.last, Write.last, List.filterMap_cons]
    rcases leaves w with _ | a
    · rfl
    · rw [List.getLast?_cons]
      rfl

theorem writeAll_nodes (t : Tables) (batch : Batch) (hash : Digest) :
    (t.writeAll batch).nodes[hash]? = batch.foldl (Write.node? hash) t.nodes[hash]? := by
  induction batch generalizing t with
  | nil => rfl
  | cons w batch ih =>
    rw [writeAll_cons, ih, List.foldl_cons]
    refine congrArg (batch.foldl (Write.node? hash)) ?_
    cases w with
    | putNode node => exact getElem?_insert_eq ..
    | setStatus hash' status =>
      rw [nodes_write_setStatus, Write.node?]
      split
      · rfl
      · exact Option.map_id' ..
    | _ => rfl

theorem ite_eq_getD {α : Type} (c : Prop) [Decidable c] (a b : α) :
    (if c then a else b) = (if c then some a else none).getD b := by
  split <;> rfl

theorem written (t : Tables) (batch : Batch) : t.Written batch (t.writeAll batch) where
  tip := by
    refine writeAll_last (f := Tables.tip) (fun t w => ?_) t batch
    cases w with
    | setStatus hash' status => exact tip_write_setStatus ..
    | _ => rfl
  blocks hash := by
    refine writeAll_last (f := fun t => t.blocks[hash]?) (fun t w => ?_) t batch
    cases w with
    | putBlock block => exact (getElem?_insert_eq ..).trans (ite_eq_getD ..)
    | setStatus hash' status => exact congrArg (·[hash]?) (blocks_write_setStatus ..)
    | _ => rfl
  nodes := writeAll_nodes t batch
  coins o := by
    refine writeAll_last (f := fun t => t.coins[o]?) (fun t w => ?_) t batch
    cases w with
    | putCoin o' coin => exact (getElem?_insert_eq ..).trans (ite_eq_getD ..)
    | deleteCoin o' => exact (getElem?_erase_eq ..).trans (ite_eq_getD ..)
    | setStatus hash' status => exact congrArg (·[o]?) (coins_write_setStatus ..)
    | _ => rfl
  journals hash := by
    refine writeAll_last (f := fun t => t.journals[hash]?) (fun t w => ?_) t batch
    cases w with
    | putJournal hash' spent => exact (getElem?_insert_eq ..).trans (ite_eq_getD ..)
    | deleteJournal hash' => exact (getElem?_erase_eq ..).trans (ite_eq_getD ..)
    | setStatus hash' status => exact congrArg (·[hash]?) (journals_write_setStatus ..)
    | _ => rfl
  keys hash := by
    refine writeAll_last (f := fun t => t.keys[hash]?) (fun t w => ?_) t batch
    cases w with
    | putKeys hash' keys => exact (getElem?_insert_eq ..).trans (ite_eq_getD ..)
    | setStatus hash' status => exact congrArg (·[hash]?) (keys_write_setStatus ..)
    | _ => rfl

/-! ## Which batches can be written -/

/-- A node is stored, or put by one of the writes before. -/
def Knows (t : Tables) (before : Batch) (hash : Digest) : Prop :=
  hash ∈ t.nodes ∨ ∃ node, .putNode node ∈ before ∧ node.hash = hash

/-- Every status that a batch sets is that of a node stored before, or put earlier in the batch. -/
def Writable (t : Tables) (batch : Batch) : Prop :=
  ∀ before hash status after, batch = before ++ .setStatus hash status :: after →
    t.Knows before hash

/-- A node is the first of those whose status a batch sets that is neither stored before nor put
earlier in the batch. -/
def FirstUnknown (t : Tables) (batch : Batch) (hash : Digest) : Prop :=
  ∃ before status after, batch = before ++ .setStatus hash status :: after ∧
    ¬ t.Knows before hash ∧ t.Writable before

theorem knows_nil : t.Knows [] hash ↔ hash ∈ t.nodes :=
  or_iff_left fun ⟨_, h, _⟩ => List.not_mem_nil h

/-- It does not matter whether the first write has been made. -/
theorem knows_cons {w : Write} : t.Knows (w :: batch) hash ↔ (t.write w).Knows batch hash := by
  rw [Knows, Knows]
  cases w with
  | putNode node =>
    rw [mem_nodes_write_putNode]
    simp only [List.mem_cons, Write.putNode.injEq, or_and_right, exists_or, exists_eq_left]
    rw [eq_comm (a := node.hash), or_left_comm, or_assoc]
  | setStatus hash' status => simp [mem_nodes_write_setStatus]
  | _ => simp [write]

theorem writable_nil : t.Writable [] := by
  intro before hash status after h
  exact absurd h.symm (List.append_ne_nil_of_right_ne_nil _ (List.cons_ne_nil _ _))

theorem writable_cons {w : Write} : t.Writable (w :: batch) ↔
    (∀ hash status, w = .setStatus hash status → hash ∈ t.nodes) ∧ (t.write w).Writable batch := by
  constructor
  · intro h
    refine ⟨?_, fun before hash status after heq => ?_⟩
    · rintro hash status rfl
      exact knows_nil.1 (h [] hash status batch rfl)
    · exact knows_cons.1 (h (w :: before) hash status after (congrArg (w :: ·) heq))
  · rintro ⟨hfirst, hrest⟩ before hash status after heq
    rcases before with _ | ⟨w', before⟩
    · exact knows_nil.2 (hfirst hash status (List.cons.inj heq).1)
    · obtain ⟨rfl, hafter⟩ := List.cons.inj heq
      exact knows_cons.2 (hrest before hash status after hafter)

theorem tryWriteAll_of_writable (h : t.Writable batch) :
    t.tryWriteAll batch = .ok (t.writeAll batch) := by
  induction batch generalizing t with
  | nil => rfl
  | cons w batch ih =>
    obtain ⟨hfirst, hrest⟩ := writable_cons.1 h
    rw [tryWriteAll, tryWrite_eq_ok hfirst]
    exact ih hrest

/-- A batch that cannot be written fails with the first status of an unknown node. -/
theorem exists_firstUnknown (h : ¬ t.Writable batch) :
    ∃ hash, t.FirstUnknown batch hash ∧ t.tryWriteAll batch = .error (.nodeNotFound hash) := by
  induction batch generalizing t with
  | nil => exact absurd writable_nil h
  | cons w batch ih =>
    rw [writable_cons, not_and] at h
    by_cases hfirst : ∀ hash status, w = .setStatus hash status → hash ∈ t.nodes
    · obtain ⟨hash, ⟨before, status, after, rfl, hunknown, hbefore⟩, htry⟩ := ih (h hfirst)
      refine ⟨hash, ⟨w :: before, status, after, rfl, mt knows_cons.1 hunknown,
        writable_cons.2 ⟨hfirst, hbefore⟩⟩, ?_⟩
      rw [tryWriteAll, tryWrite_eq_ok hfirst]
      exact htry
    · push Not at hfirst
      obtain ⟨hash, status, rfl, hunknown⟩ := hfirst
      refine ⟨hash, ⟨[], status, batch, rfl, mt knows_nil.1 hunknown, writable_nil⟩, ?_⟩
      rw [tryWriteAll, tryWrite, if_neg hunknown]

end Tables

/-! ## Commits -/

/-- The result of committing a batch, and what is stored then. -/
structure Committed (t : Tables) (batch : Batch) (result : Except StoreError Unit) (t' : Tables) :
    Prop where
  /-- it succeeds if every status is that of a known node -/
  ok_iff : result = .ok () ↔ t.Writable batch
  /-- then the writes have been made in order -/
  contents (h : t.Writable batch) : t' = t.writeAll batch ∧ t.Written batch t'
  /-- else the first status of an unknown node is reported, and nothing changes -/
  refused (h : ¬ t.Writable batch) :
    ∃ hash, t.FirstUnknown batch hash ∧ result = .error (.nodeNotFound hash) ∧ t' = t

theorem PersistentStore.committed (s : PersistentStore) (batch : Batch) :
    Committed s.tables batch (s.commit batch).1 (s.commit batch).2.tables := by
  by_cases h : s.tables.Writable batch
  · rw [commit, Tables.tryWriteAll_of_writable h]
    exact ⟨iff_of_true rfl h, fun _ => ⟨rfl, Tables.written ..⟩, fun hn => absurd h hn⟩
  · obtain ⟨hash, hfirst, htry⟩ := Tables.exists_firstUnknown h
    rw [commit, htry]
    exact ⟨iff_of_false (fun heq => nomatch heq) h, fun hw => absurd hw h,
      fun _ => ⟨hash, hfirst, rfl, rfl⟩⟩

/-- Both stores commit alike. -/
theorem MemoryStore.commit_eq (t : Tables) (batch : Batch) :
    (MemoryStore.mk t).commit batch =
      (((PersistentStore.mk t).commit batch).1, ⟨((PersistentStore.mk t).commit batch).2.tables⟩) := by
  have hnil : ∀ hash, hash ∈ t.nodes ↔ hash ∈ [] ∨ hash ∈ t.nodes := fun hash =>
    (or_iff_right List.not_mem_nil).symm
  rw [commit, PersistentStore.commit, Tables.tryWriteAll_eq_firstUnknown? hnil]
  rcases t.firstUnknown? [] batch with _ | hash <;> rfl

/-- A batch that another one extends is committed like the two in turn, but wholly or not at all. -/
theorem PersistentStore.commit_append (s : PersistentStore) (a b : Batch) :
    s.commit (a ++ b) =
      match s.commit a with
      | (.error e, _) => (.error e, s)
      | (.ok (), s') =>
        match s'.commit b with
        | (.error e, _) => (.error e, s)
        | (.ok (), s'') => (.ok (), s'') := by
  rw [commit, commit, Tables.tryWriteAll_append_eq_bind]
  rcases s.tables.tryWriteAll a with e | t
  · rfl
  · dsimp only [Except.bind]
    rw [commit]
    rcases t.tryWriteAll b with e | t' <;> rfl

end PermissionedLedger
