import Mathlib
import PermissionedLedger.Proofs.Store.Commits
import PermissionedLedger.Proofs.Store.Databases

/-!
# Stores with the same history

A store in memory, a persistent one and databases that are asked the same have the same results
and answer alike, whatever batches fail and whenever the stores are opened again
(`commits_atomic_in_order`).
-/

namespace PermissionedLedger

/-- Whatever is stored, a batch is committed in the same way. -/
structure CommittedAlike (t : Tables) (batch : Batch) : Prop where
  /-- a store in memory commits as it should -/
  memory : Committed t batch ((MemoryStore.mk t).commit batch).1
    ((MemoryStore.mk t).commit batch).2.tables
  /-- and so does a persistent store -/
  persistent : Committed t batch ((PersistentStore.mk t).commit batch).1
    ((PersistentStore.mk t).commit batch).2.tables
  /-- the results are the same -/
  results : ((MemoryStore.mk t).commit batch).1 = ((PersistentStore.mk t).commit batch).1
  /-- so is what is stored then -/
  tables : ((MemoryStore.mk t).commit batch).2.tables =
    ((PersistentStore.mk t).commit batch).2.tables
  /-- databases with the same tables have the same result, and the same tables then -/
  databases (d : Databases) (hd : d.Stores t) (hbatch : ∀ w ∈ batch, w.Sized) :
    (d.commit batch).1 = ((PersistentStore.mk t).commit batch).1.mapError .store ∧
      (d.commit batch).2.Stores ((PersistentStore.mk t).commit batch).2.tables
  /-- a batch that this one is extended with comes after it, but neither is committed alone -/
  extended (more : Batch) : (PersistentStore.mk t).commit (batch ++ more) =
    match (PersistentStore.mk t).commit batch with
    | (.error e, _) => (.error e, ⟨t⟩)
    | (.ok (), s) =>
      match s.commit more with
      | (.error e, _) => (.error e, ⟨t⟩)
      | (.ok (), s') => (.ok (), s')

theorem committedAlike (t : Tables) (batch : Batch) : CommittedAlike t batch where
  memory := by
    rw [MemoryStore.commit_eq]
    exact PersistentStore.committed ⟨t⟩ batch
  persistent := PersistentStore.committed ⟨t⟩ batch
  results := by rw [MemoryStore.commit_eq]
  tables := by rw [MemoryStore.commit_eq]
  databases _ hd hbatch := hd.commit hbatch
  extended := PersistentStore.commit_append ⟨t⟩ batch

/-- The answers of a store in memory, of a persistent one and of databases are the same. -/
structure AnswerAlike (m : MemoryStore) (p : PersistentStore) (d : Databases) : Prop where
  /-- both stores answer from the same tables -/
  tables : p.tables = m.tables
  /-- databases have the same tip -/
  tip : d.tip = .ok m.tables.tip
  /-- and the same blocks -/
  block (hash : Digest) : d.block? hash = .ok m.tables.blocks[hash]?
  /-- and the same nodes -/
  node (hash : Digest) : d.node? hash = .ok m.tables.nodes[hash]?
  /-- which are the same all together, in some order -/
  nodes : ∃ nodes, d.allNodes = .ok nodes ∧ nodes.Perm (m.tables.nodes.toList.map (·.2))
  /-- and the same unspent outputs -/
  coin (o : OutPoint) : d.coin? o = .ok m.tables.coins[o]?
  /-- which are the same all together -/
  coins : d.allCoins = .ok m.tables.coins
  /-- and the same journals -/
  journal (hash : Digest) : d.journal? hash = .ok m.tables.journals[hash]?
  /-- and the same key sets -/
  keys (hash : Digest) : d.keys? hash = .ok m.tables.keys[hash]?

theorem Databases.Stores.answerAlike {d : Databases} {t : Tables} (h : d.Stores t) :
    AnswerAlike ⟨t⟩ ⟨t⟩ d where
  tables := rfl
  tip := h.tip_eq
  block := h.block?_eq
  node := h.node?_eq
  nodes := h.allNodes_perm
  coin := h.coin?_eq
  coins := h.allCoins_eq
  journal := h.journal?_eq
  keys := h.keys?_eq

namespace StoreCall

variable {t : Tables} {d : Databases} {batch : Batch} {calls : List StoreCall} {n : Nat}

/-- A batch adds no more entries than it has writes, if it is committed. -/
theorem within_commit (h : t.Within n) (batch : Batch) :
    ((PersistentStore.mk t).commit batch).2.tables.Within (n + batch.length) := by
  have hcommitted := PersistentStore.committed ⟨t⟩ batch
  by_cases hw : t.Writable batch
  · rw [(hcommitted.contents hw).1]
    exact h.writeAll batch
  · obtain ⟨_, -, -, heq⟩ := hcommitted.refused hw
    rw [heq]
    exact h.mono (Nat.le_add_right ..)

theorem performAll_commit {σ ε : Type} (commit : σ → Batch → Except ε Unit × σ)
    (open? : σ → Option σ) (s : σ) :
    performAll commit open? s (.commit batch :: calls) =
      (performAll commit open? (commit s batch).2 calls).map
        fun r => ((commit s batch).1 :: r.1, r.2) :=
  rfl

/-- The same calls of stores with the same tables have the same results, and leave the same
tables. -/
theorem performAll_alike (hd : d.Stores t) (hn : t.Within n)
    (hsized : ∀ w ∈ writes calls, w.Sized) (hcount : n + (writes calls).length < 2 ^ 64) :
    ∃ results t' d',
      performAll MemoryStore.commit some ⟨t⟩ calls = some (results, ⟨t'⟩) ∧
      performAll PersistentStore.commit PersistentStore.reopen? ⟨t⟩ calls = some (results, ⟨t'⟩) ∧
      performAll Databases.commit some d calls = some (results.map (·.mapError .store), d') ∧
      d'.Stores t' := by
  induction calls generalizing t d n with
  | nil => exact ⟨[], t, d, rfl, rfl, rfl, hd⟩
  | cons call calls ih =>
    cases call with
    | commit batch =>
      rw [writes] at hsized hcount
      rw [List.length_append, ← Nat.add_assoc] at hcount
      obtain ⟨hresult, hstores⟩ := hd.commit fun w hw => hsized w (List.mem_append_left _ hw)
      obtain ⟨results, t', d', hm, hp, hd', hlast⟩ := ih hstores (within_commit hn batch)
        (fun w hw => hsized w (List.mem_append_right _ hw)) hcount
      refine ⟨((PersistentStore.mk t).commit batch).1 :: results, t', d', ?_, ?_, ?_, hlast⟩
      · rw [performAll_commit, MemoryStore.commit_eq, hm]
        rfl
      · rw [performAll_commit, hp]
        rfl
      · rw [performAll_commit, hd', hresult]
        rfl
    | reopen =>
      have hopen : (PersistentStore.mk t).reopen? = some ⟨t⟩ :=
        PersistentStore.ofImage?_image hd.sized hn ((Nat.le_add_right ..).trans_lt hcount)
      obtain ⟨results, t', d', hm, hp, hd', hlast⟩ := ih hd hn hsized hcount
      refine ⟨results, t', d', hm, ?_, hd', hlast⟩
      rw [performAll, hopen]
      exact hp

end StoreCall

/-- Every batch is committed in order and wholly or not at all, by all stores alike. So the stores
answer alike after whatever was asked of them. -/
theorem commits_atomic_in_order (calls : List StoreCall)
    (hsized : ∀ w ∈ StoreCall.writes calls, w.Sized)
    (hcount : (StoreCall.writes calls).length < 2 ^ 64) :
    (∀ t batch, CommittedAlike t batch) ∧
      ∃ results m p d,
        StoreCall.performAll MemoryStore.commit some {} calls = some (results, m) ∧
        StoreCall.performAll PersistentStore.commit PersistentStore.reopen? {} calls =
          some (results, p) ∧
        StoreCall.performAll Databases.commit some {} calls =
          some (results.map (·.mapError .store), d) ∧
        AnswerAlike m p d := by
  have hfits : 0 + (StoreCall.writes calls).length < 2 ^ 64 := by rwa [Nat.zero_add]
  obtain ⟨results, t, d, hm, hp, hd, hstores⟩ :=
    StoreCall.performAll_alike Databases.stores_empty Tables.within_empty hsized hfits
  exact ⟨committedAlike, results, ⟨t⟩, ⟨t⟩, d, hm, hp, hd, hstores.answerAlike⟩

/-! ## A batch that fails between two that do not -/

namespace HistorySample

/-- The digest of the only block that is known. -/
def known : Digest := .ofNat 1

/-- A digest of no block. -/
def missing : Digest := .ofNat 2

/-- An output of the block. -/
def output : OutPoint := ⟨known, 0⟩

/-- The node of the block. -/
def node : NodeRecord where
  hash := known
  header :=
    { version := 1
      previous := .zero
      merkleRoot := .zero
      time := .epoch
      bits := 0
      nonce := 0
      size := 0
      validator := default
      signature := [] }
  height := 1
  status := .unvalidated

/-- The coin of the output. -/
def coin : Coin := ⟨⟨5, .payToKey .zero⟩, 1, false⟩

/-- The second batch sets the status of a node that is not stored. The third puts a node between
two changes of its status. -/
def calls : List StoreCall :=
  [.commit [.putNode node, .setStatus known .valid, .putCoin output coin,
      .putJournal known [], .putKeys known {}, .setTip known],
    .reopen,
    .commit [.deleteCoin output, .setTip missing, .setStatus missing .invalid],
    .commit [.setStatus known .invalid, .putNode node, .setStatus known .valid, .deleteCoin output],
    .reopen]

theorem sized_calls : ∀ w ∈ StoreCall.writes calls, w.Sized := by
  have hnode : node.Sized := ⟨by decide, by decide⟩
  have hcoin : coin.Sized := ⟨trivial, by decide⟩
  have hspent : Journal.Sized [] := ⟨by decide, fun _ h => nomatch h⟩
  have hkeys : KeySets.Sized {} := fun r => by cases r <;> decide
  simp [StoreCall.writes, calls, Write.Sized, hnode, hcoin, hspent, hkeys]

end HistorySample

/-- The batch that fails changes nothing, and the others are kept. -/
theorem commits_atomic_in_order_of_failure :
    (∀ w ∈ StoreCall.writes HistorySample.calls, w.Sized) ∧
      (StoreCall.writes HistorySample.calls).length < 2 ^ 64 ∧
      ∃ m p d,
        StoreCall.performAll MemoryStore.commit some {} HistorySample.calls =
          some ([.ok (), .error (.nodeNotFound HistorySample.missing), .ok ()], m) ∧
        StoreCall.performAll PersistentStore.commit PersistentStore.reopen? {}
          HistorySample.calls =
          some ([.ok (), .error (.nodeNotFound HistorySample.missing), .ok ()], p) ∧
        StoreCall.performAll Databases.commit some {} HistorySample.calls =
          some ([.ok (), .error (.store (.nodeNotFound HistorySample.missing)), .ok ()], d) ∧
        AnswerAlike m p d := by
  have hcount : (StoreCall.writes HistorySample.calls).length < 2 ^ 64 := by decide
  have hresults : (StoreCall.performAll MemoryStore.commit some {} HistorySample.calls).map (·.1) =
      some [.ok (), .error (.nodeNotFound HistorySample.missing), .ok ()] := by
    decide +kernel
  obtain ⟨-, results, m, p, d, hm, hp, hd, halike⟩ :=
    commits_atomic_in_order HistorySample.calls HistorySample.sized_calls hcount
  rw [hm] at hresults
  obtain rfl := Option.some.inj hresults
  exact ⟨HistorySample.sized_calls, hcount, m, p, d, hm, hp, hd, halike⟩

end PermissionedLedger
