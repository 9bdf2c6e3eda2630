import Mathlib
import PermissionedLedger.Coins.View
import PermissionedLedger.Store.ChainStore

/-!
# The effect of a batch

A write changes one table, so that a batch leaves alone what none of its writes is
about (`Tables.writeAll_keeps`). What batches do change is looked up entry by entry:
statuses of nodes (`nodes_writeAll_setStatus`), and the coins of a view
(`coins_writeAll_writes`).

Both stores commit whole batches or nothing (`LawfulChainStore`).
-/

namespace PermissionedLedger

section Maps

variable {κ α : Type} [Ord κ] [Std.TransOrd κ] [Std.LawfulEqOrd κ]

theorem nodup_toList (m : Std.ExtTreeMap κ α) : m.toList.Nodup :=
  Std.ExtTreeMap.distinct_keys_toList.imp fun h heq =>
    h (Std.LawfulEqCmp.compare_eq_iff_eq.2 (congrArg Prod.fst heq))

variable [DecidableEq κ]

theorem getElem?_insert_eq (m : Std.ExtTreeMap κ α) (k k' : κ) (a : α) :
    (m.insert k a)[k']? = if k' = k then some a else m[k']? := by
  rw [Std.ExtTreeMap.getElem?_insert]
  by_cases h : k' = k
  · rw [if_pos h, if_pos (Std.LawfulEqCmp.compare_eq_iff_eq.2 h.symm)]
  · rw [if_neg h, if_neg (fun e => h (Std.LawfulEqCmp.compare_eq_iff_eq.1 e).symm)]

theorem getElem?_erase_eq (m : Std.ExtTreeMap κ α) (k k' : κ) :
    (m.erase k)[k']? = if k' = k then none else m[k']? := by
  rw [Std.ExtTreeMap.getElem?_erase]
  by_cases h : k' = k
  · rw [if_pos h, if_pos (Std.LawfulEqCmp.compare_eq_iff_eq.2 h.symm)]
  · rw [if_neg h, if_neg (fun e => h (Std.LawfulEqCmp.compare_eq_iff_eq.1 e).symm)]

end Maps

namespace Tables

variable {T : Tables} {batch : Batch}

/-- What no write of a batch changes, the batch does not change. -/
theorem writeAll_keeps {α : Type} (f : Tables → α)
    (h : ∀ w ∈ batch, ∀ T, f (T.write w) = f T) (T : Tables) : f (T.writeAll batch) = f T := by
  induction batch generalizing T with
  | nil => rfl
  | cons w batch ih =>
    rw [writeAll_cons, ih (fun w' hw' => h w' (List.mem_cons_of_mem _ hw')),
      h w (List.mem_cons_self ..)]

/-! ## Statuses -/

section Status

variable (T : Tables) (hash : Digest) (status : BlockStatus)

@[simp] theorem tip_write_setStatus : (T.write (.setStatus hash status)).tip = T.tip := by
  rw [write]
  split <;> rfl

@[simp] theorem blocks_write_setStatus :
    (T.write (.setStatus hash status)).blocks = T.blocks := by
  rw [write]
  split <;> rfl

@[simp] theorem coins_write_setStatus : (T.write (.setStatus hash status)).coins = T.coins := by
  rw [write]
  split <;> rfl

@[simp] theorem journals_write_setStatus :
    (T.write (.setStatus hash status)).journals = T.journals := by
  rw [write]
  split <;> rfl

@[simp] theorem keys_write_setStatus : (T.write (.setStatus hash status)).keys = T.keys := by
  rw [write]
  split <;> rfl

/-- A status changes for a node that is stored. -/
theorem nodes_write_setStatus (h : Digest) :
    (T.write (.setStatus hash status)).nodes[h]? =
      (T.nodes[h]?).map fun r => if h = hash then { r with status } else r := by
  rw [write]
  split
  · next r hr =>
    rw [getElem?_insert_eq]
    split
    · next heq => rw [heq, hr, Option.map_some]
    · next hne => simp
  · next hnone =>
    by_cases heq : h = hash
    · rw [heq, hnone]
      rfl
    · simp [heq]

/-- Several nodes are given one status. -/
theorem nodes_writeAll_setStatus (hashes : List Digest) (h : Digest) :
    (T.writeAll (hashes.map (.setStatus · status))).nodes[h]? =
      (T.nodes[h]?).map fun r => if h ∈ hashes then { r with status } else r := by
  induction hashes generalizing T with
  | nil => simp
  | cons hash hashes ih =>
    rw [List.map_cons, writeAll_cons, ih, nodes_write_setStatus, Option.map_map]
    refine congrArg (Option.map · _) (funext fun r => ?_)
    by_cases heq : h = hash <;> by_cases hin : h ∈ hashes <;> simp [heq, hin]

/-- Nothing else changes. -/
theorem writeAll_setStatus_eq (hashes : List Digest) :
    T.writeAll (hashes.map (.setStatus · status)) =
      { T with nodes := (T.writeAll (hashes.map (.setStatus · status))).nodes } := by
  induction hashes generalizing T with
  | nil => rfl
  | cons hash hashes ih =>
    rw [List.map_cons, writeAll_cons, ih (T.write _)]
    rw [write]
    split <;> rfl

/-- It does not matter in which order. -/
theorem writeAll_setStatus_congr {hashes hashes' : List Digest}
    (hsame : ∀ h, h ∈ hashes ↔ h ∈ hashes') :
    T.writeAll (hashes.map (.setStatus · status)) =
      T.writeAll (hashes'.map (.setStatus · status)) := by
  have hnodes : (T.writeAll (hashes.map (.setStatus · status))).nodes =
      (T.writeAll (hashes'.map (.setStatus · status))).nodes := by
    refine Std.ExtTreeMap.ext_getElem? fun h => ?_
    simp only [nodes_writeAll_setStatus, hsame]
  rw [writeAll_setStatus_eq, writeAll_setStatus_eq T status hashes', hnodes]

end Status

/-! ## Coins -/

/-- Puts and deletions of different coins are looked up one by one. -/
theorem coins_writeAll_toWrite {entries : List (OutPoint × CoinState)}
    (hdistinct : entries.Pairwise fun a b => a.1 ≠ b.1) (T : Tables) (o : OutPoint) :
    (T.writeAll (entries.map fun (o, state) => CoinView.toWrite o state)).coins[o]? =
      match entries.find? (·.1 = o) with
      | some (_, .unspent coin) => some coin
      | some _ => none
      | none => T.coins[o]? := by
  induction entries generalizing T with
  | nil => rfl
  | cons entry entries ih =>
    obtain ⟨p, state⟩ := entry
    obtain ⟨hfirst, hrest⟩ := List.pairwise_cons.1 hdistinct
    rw [List.map_cons, writeAll_cons, ih hrest]
    by_cases hp : p = o
    · have hnone : entries.find? (·.1 = o) = none := by
        refine List.find?_eq_none.2 fun e he heq => hfirst e he ?_
        rw [hp, of_decide_eq_true heq]
      rw [hnone, List.find?_cons_of_pos (by simpa using hp)]
      rcases state with coin | _ | _
      · simp only [CoinView.toWrite, write, getElem?_insert_eq, if_pos hp.symm]
      · simp only [CoinView.toWrite, write, getElem?_erase_eq, if_pos hp.symm]
      · simp only [CoinView.toWrite, write, getElem?_erase_eq, if_pos hp.symm]
    · rw [List.find?_cons_of_neg (by simpa using hp)]
      have hkeep : (T.write (CoinView.toWrite p state)).coins[o]? = T.coins[o]? := by
        rcases state with coin | _ | _
        · simp only [CoinView.toWrite, write, getElem?_insert_eq, if_neg (Ne.symm hp)]
        · simp only [CoinView.toWrite, write, getElem?_erase_eq, if_neg (Ne.symm hp)]
        · simp only [CoinView.toWrite, write, getElem?_erase_eq, if_neg (Ne.symm hp)]
      rw [hkeep]

/-- Writing the differences of a view over the stored coins stores what the view shows. -/
theorem coins_writeAll_writes {v : CoinView} (hbase : v.base = T.coins) (o : OutPoint) :
    (T.writeAll v.writes).coins[o]? = v.lookup? o := by
  have hdistinct : v.changes.toList.Pairwise fun a b => a.1 ≠ b.1 :=
    v.changes.distinct_keys_toList.imp fun h heq =>
      h (Std.LawfulEqCmp.compare_eq_iff_eq.2 heq)
  rw [CoinView.writes, coins_writeAll_toWrite hdistinct]
  rcases hfind : v.changes.toList.find? (·.1 = o) with _ | ⟨p, state⟩
  · have hnone : v.changes[o]? = none := by
      rcases hs : v.changes[o]? with _ | state
      · rfl
      · have hmem := Std.ExtTreeMap.mem_toList_iff_getElem?_eq_some.2 hs
        have := List.find?_eq_none.1 hfind _ hmem
        simp at this
    simp only [hfind, CoinView.lookup?, CoinView.fetch, hnone, hbase]
    rcases T.coins[o]? with _ | coin <;> rfl
  · obtain rfl : p = o := by simpa using List.find?_some hfind
    have hsome := Std.ExtTreeMap.mem_toList_iff_getElem?_eq_some.1 (List.mem_of_find?_eq_some hfind)
    simp only [hfind, CoinView.lookup?, CoinView.fetch, hsome]
    rcases state with coin | _ | _ <;> rfl

theorem mem_writes {v : CoinView} {w : Write} (h : w ∈ v.writes) :
    ∃ o, (∃ coin, w = .putCoin o coin) ∨ w = .deleteCoin o := by
  obtain ⟨⟨o, state⟩, -, rfl⟩ := List.mem_map.1 h
  rcases state with coin | _ | _
  · exact ⟨o, Or.inl ⟨coin, rfl⟩⟩
  · exact ⟨o, Or.inr rfl⟩
  · exact ⟨o, Or.inr rfl⟩

/-- The writes of a view change coins only. -/
theorem writeAll_writes_eq (T : Tables) (v : CoinView) :
    T.writeAll v.writes = { T with coins := (T.writeAll v.writes).coins } := by
  have hsame : { T.writeAll v.writes with coins := ∅ } = { T with coins := ∅ } := by
    refine writeAll_keeps (fun T => { T with coins := ∅ }) (fun w hw T => ?_) T
    obtain ⟨o, ⟨coin, rfl⟩ | rfl⟩ := mem_writes hw
    · rfl
    · rfl
  exact congrArg (fun S : Tables => { S with coins := (T.writeAll v.writes).coins }) hsame

/-! ## Commits -/

theorem eq_writeAll_of_tryWriteAll {T' : Tables} (h : T.tryWriteAll batch = .ok T') :
    T' = T.writeAll batch := by
  induction batch generalizing T with
  | nil => exact (Except.ok.inj h).symm
  | cons w batch ih =>
    rw [tryWriteAll] at h
    have hwrite : ∀ {next}, T.tryWrite w = .ok next → next = T.write w := by
      intro next hnext
      cases w with
      | setStatus hash status =>
        simp only [tryWrite] at hnext
        split at hnext
        · exact (Except.ok.inj hnext).symm
        · cases hnext
      | _ => exact (Except.ok.inj hnext).symm
    split at h
    · next next hnext =>
      rw [ih h, hwrite hnext]
      rfl
    · cases h

end Tables

instance : LawfulChainStore MemoryStore where
  tables_of_ok s s' batch h := by
    change s.commit batch = _ at h
    rw [MemoryStore.commit] at h
    split at h
    · cases (Prod.mk.inj h).1
    · rw [← (Prod.mk.inj h).2]
      rfl
  tables_of_error s s' batch e h := by
    change s.commit batch = _ at h
    rw [MemoryStore.commit] at h
    split at h
    · rw [(Prod.mk.inj h).2]
    · cases (Prod.mk.inj h).1

instance : LawfulChainStore PersistentStore where
  tables_of_ok s s' batch h := by
    change s.commit batch = _ at h
    rw [PersistentStore.commit] at h
    split at h
    · next tables htables =>
      rw [← (Prod.mk.inj h).2]
      exact Tables.eq_writeAll_of_tryWriteAll htables
    · cases (Prod.mk.inj h).1
  tables_of_error s s' batch e h := by
    change s.commit batch = _ at h
    rw [PersistentStore.commit] at h
    split at h
    · cases (Prod.mk.inj h).1
    · rw [(Prod.mk.inj h).2]

end PermissionedLedger
