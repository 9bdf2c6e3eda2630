import Mathlib
import PermissionedLedger.Proofs.Store.Batches
import PermissionedLedger.Proofs.Wire.BlockFiles
import PermissionedLedger.Store.Image

/-!
# Stored values are read back

What a store keeps is read back as it was written, value by value and as the whole file of a
persistent store (`PersistentStore.ofImage?_image`). That takes heights and lengths that fit in
eight bytes, as those of blocks do (`Tables.Sized`), and as many entries as a number in eight bytes
can count (`Tables.Within`).
-/

namespace PermissionedLedger

open Codec

/-! ## Lengths -/

/-- Numbers in the coin fit in eight bytes. -/
structure Coin.Sized (c : Coin) : Prop where
  /-- lengths in the output do -/
  output : c.output.lock.Sized
  /-- the height does -/
  height : c.height < 2 ^ 64

/-- Lengths in the journal fit in eight bytes. -/
structure Journal.Sized (j : Journal) : Prop where
  /-- its length does -/
  count : j.length < 2 ^ 64
  /-- and numbers in its coins do -/
  coins : ∀ s ∈ j, s.coin.Sized

/-- The numbers of keys fit in eight bytes. -/
def KeySets.Sized (s : KeySets) : Prop := ∀ r, (s.keys r).toList.length < 2 ^ 64

/-- Numbers in the node fit in eight bytes. -/
structure NodeRecord.Sized (n : NodeRecord) : Prop where
  /-- the length of the signature does -/
  signature : n.header.signature.length < 2 ^ 64
  /-- the height does -/
  height : n.height < 2 ^ 64

/-- Numbers in what is written fit in eight bytes. -/
def Write.Sized : Write → Prop
  | .putBlock block => block.Sized
  | .putNode node => node.Sized
  | .putCoin _ coin => coin.Sized
  | .putJournal _ spent => Journal.Sized spent
  | .putKeys _ keys => keys.Sized
  | .setStatus .. | .deleteCoin _ | .deleteJournal _ | .setTip _ => True

/-- Numbers in what is stored fit in eight bytes. -/
structure Tables.Sized (t : Tables) : Prop where
  blocks (hash : Digest) (b : Block) (h : t.blocks[hash]? = some b) : b.Sized
  nodes (hash : Digest) (n : NodeRecord) (h : t.nodes[hash]? = some n) : n.Sized
  coins (o : OutPoint) (c : Coin) (h : t.coins[o]? = some c) : c.Sized
  journals (hash : Digest) (j : Journal) (h : t.journals[hash]? = some j) : Journal.Sized j
  keys (hash : Digest) (s : KeySets) (h : t.keys[hash]? = some s) : s.Sized

/-- No table has more entries than a number. -/
structure Tables.Within (t : Tables) (n : Nat) : Prop where
  blocks : t.blocks.size ≤ n
  nodes : t.nodes.size ≤ n
  coins : t.coins.size ≤ n
  journals : t.journals.size ≤ n
  keys : t.keys.size ≤ n

namespace Wire

/-! ## Values -/

theorem lawfulAt_bool (b : Bool) : bool.LawfulAt b := by
  have hfits : b.toNat < 256 ^ 1 := by cases b <;> decide
  exact (lawfulAt_number hfits).convert (by cases b <;> rfl)

theorem lawfulAt_height {n : Nat} (h : n < 2 ^ 64) : height.LawfulAt n := lawfulAt_number h

theorem lawfulAt_coin {c : Coin} (h : c.Sized) : coin.LawfulAt c :=
  ((lawfulAt_txOutput h.output).pair ((lawfulAt_height h.height).pair (lawfulAt_bool _))).map rfl

theorem lawfulAt_journal {j : Journal} (h : Journal.Sized j) : spentCoin.list.LawfulAt j :=
  .list h.count fun s hs => ((lawfulAt_outPoint _).pair (lawfulAt_coin (h.coins s hs))).map rfl

theorem lawfulAt_status (s : BlockStatus) : status.LawfulAt s := by
  cases s with
  | unvalidated => exact .union 0 rfl (by decide) rfl (lawfulAt_const _)
  | valid => exact .union 1 rfl (by decide) rfl (lawfulAt_const _)
  | invalid => exact .union 2 rfl (by decide) rfl (lawfulAt_const _)

theorem lawfulAt_node {n : NodeRecord} (h : n.Sized) : node.LawfulAt n :=
  ((lawfulAt_digest _).pair <| (lawfulAt_header h.signature).pair <|
    (lawfulAt_height h.height).pair <| lawfulAt_status _).map rfl

theorem ofList_toList_keySet (s : KeySet) : Std.ExtTreeSet.ofList s.toList = s := by
  refine Std.ExtTreeSet.ext_mem fun k => ?_
  rw [Std.ExtTreeSet.mem_ofList, List.contains_iff_mem, Std.ExtTreeSet.mem_toList]

theorem lawfulAt_keySet {s : KeySet} (h : s.toList.length < 2 ^ 64) : keySet.LawfulAt s := by
  have hkeys : publicKey.list.LawfulAt s.toList := .list h fun k _ => lawfulAt_publicKey k
  exact hkeys.map (ofList_toList_keySet s)

theorem lawfulAt_keySets {s : KeySets} (h : s.Sized) : keySets.LawfulAt s :=
  ((lawfulAt_keySet (h .root)).pair <| (lawfulAt_keySet (h .provisioning)).pair <|
    (lawfulAt_keySet (h .issuing)).pair <| lawfulAt_keySet (h .validating)).map rfl

/-! ## Tables -/

section Table

variable {κ ν : Type} [Ord κ] [Std.TransOrd κ] [Std.LawfulEqOrd κ] [DecidableEq κ]
  {key : Codec κ} {value : Codec ν}

/-- A table is that of its entries, in whatever order they are. -/
theorem ofList_eq_of_perm {entries : List (κ × ν)} {t : Std.ExtTreeMap κ ν}
    (h : entries.Perm t.toList) : .ofList entries = t := by
  refine Std.ExtTreeMap.ext_getElem? fun k => ?_
  rcases hk : t[k]? with _ | v
  · refine Std.ExtTreeMap.getElem?_ofList_of_contains_eq_false (Bool.eq_false_iff.2 fun hin => ?_)
    obtain ⟨e, he, rfl⟩ := List.mem_map.1 (List.contains_iff_mem.1 hin)
    rw [Std.ExtTreeMap.mem_toList_iff_getElem?_eq_some.1 (h.mem_iff.1 he)] at hk
    cases hk
  · have hdistinct : entries.Pairwise fun a b => ¬ compare a.1 b.1 = .eq :=
      Std.ExtTreeMap.distinct_keys_toList.perm h.symm fun hne heq =>
        hne (Std.OrientedCmp.eq_symm heq)
    exact Std.ExtTreeMap.getElem?_ofList_of_mem Std.ReflCmp.compare_self hdistinct
      (h.mem_iff.2 (Std.ExtTreeMap.mem_toList_iff_getElem?_eq_some.2 hk))

theorem lawfulAt_table {t : Std.ExtTreeMap κ ν} (hcount : t.size < 2 ^ 64)
    (hkey : ∀ k, key.LawfulAt k) (hvalue : ∀ (k : κ) (v : ν), t[k]? = some v → value.LawfulAt v) :
    (table key value).LawfulAt t := by
  have hentries : (key.pair value).list.LawfulAt t.toList := by
    refine .list (by rwa [Std.ExtTreeMap.length_toList]) fun e he => ?_
    exact (hkey e.1).pair (hvalue e.1 e.2 (Std.ExtTreeMap.mem_toList_iff_getElem?_eq_some.1 he))
  exact hentries.map (ofList_eq_of_perm (.refl _))

end Table

theorem lawfulAt_tables {t : Tables} (h : t.Sized) {n : Nat} (hcount : t.Within n)
    (hn : n < 2 ^ 64) : tables.LawfulAt t := by
  have htip : digest.list.LawfulAt t.tip.toList := by
    have hone : t.tip.toList.length ≤ 1 := by cases t.tip <;> simp
    exact .list (hone.trans_lt (by decide)) fun hash _ => lawfulAt_digest hash
  refine (htip.pair <| (lawfulAt_table (hcount.blocks.trans_lt hn) lawfulAt_digest
      fun hash b hb => lawfulAt_block (h.blocks hash b hb)).pair <|
    (lawfulAt_table (hcount.nodes.trans_lt hn) lawfulAt_digest
      fun hash m hm => lawfulAt_node (h.nodes hash m hm)).pair <|
    (lawfulAt_table (hcount.coins.trans_lt hn) lawfulAt_outPoint
      fun o c hc => lawfulAt_coin (h.coins o c hc)).pair <|
    (lawfulAt_table (hcount.journals.trans_lt hn) lawfulAt_digest
      fun hash j hj => lawfulAt_journal (h.journals hash j hj)).pair <|
    lawfulAt_table (hcount.keys.trans_lt hn) lawfulAt_digest
      fun hash s hs => lawfulAt_keySets (h.keys hash s hs)).map ?_
  obtain ⟨tip⟩ := t
  cases tip <;> rfl

end Wire

/-! ## Writes -/

section Maps

variable {κ ν : Type} [Ord κ] [Std.TransOrd κ] [Std.LawfulEqOrd κ] [DecidableEq κ]
  {m : Std.ExtTreeMap κ ν} {P : ν → Prop}

theorem forall_getElem?_insert {k : κ} {v : ν} (h : ∀ (k : κ) (v : ν), m[k]? = some v → P v)
    (hv : P v) (k' : κ) (v' : ν) (hv' : (m.insert k v)[k']? = some v') : P v' := by
  rw [getElem?_insert_eq] at hv'
  split at hv'
  · exact Option.some.inj hv' ▸ hv
  · exact h k' v' hv'

theorem forall_getElem?_erase {k : κ} (h : ∀ (k : κ) (v : ν), m[k]? = some v → P v) (k' : κ)
    (v' : ν) (hv' : (m.erase k)[k']? = some v') : P v' := by
  rw [getElem?_erase_eq] at hv'
  split at hv'
  · cases hv'
  · exact h k' v' hv'

end Maps

namespace Tables

variable {t : Tables} {w : Write} {n : Nat}

theorem sized_empty : Sized {} where
  blocks _ _ h := nomatch Std.ExtTreeMap.getElem?_empty.symm.trans h
  nodes _ _ h := nomatch Std.ExtTreeMap.getElem?_empty.symm.trans h
  coins _ _ h := nomatch Std.ExtTreeMap.getElem?_empty.symm.trans h
  journals _ _ h := nomatch Std.ExtTreeMap.getElem?_empty.symm.trans h
  keys _ _ h := nomatch Std.ExtTreeMap.getElem?_empty.symm.trans h

/-- What is written fits, and so does what is stored then. -/
theorem Sized.write (h : t.Sized) (hw : w.Sized) : (t.write w).Sized := by
  obtain ⟨hblocks, hnodes, hcoins, hjournals, hkeys⟩ := h
  cases w with
  | putBlock block =>
    exact ⟨forall_getElem?_insert hblocks hw, hnodes, hcoins, hjournals, hkeys⟩
  | putNode node =>
    exact ⟨hblocks, forall_getElem?_insert hnodes hw, hcoins, hjournals, hkeys⟩
  | setStatus hash status =>
    rw [Tables.write]
    split
    · next node hnode =>
      have hsized := hnodes hash node hnode
      exact ⟨hblocks, forall_getElem?_insert hnodes ⟨hsized.signature, hsized.height⟩, hcoins,
        hjournals, hkeys⟩
    · exact ⟨hblocks, hnodes, hcoins, hjournals, hkeys⟩
  | putCoin o coin =>
    exact ⟨hblocks, hnodes, forall_getElem?_insert hcoins hw, hjournals, hkeys⟩
  | deleteCoin o =>
    exact ⟨hblocks, hnodes, forall_getElem?_erase hcoins, hjournals, hkeys⟩
  | putJournal hash spent =>
    exact ⟨hblocks, hnodes, hcoins, forall_getElem?_insert hjournals hw, hkeys⟩
  | deleteJournal hash =>
    exact ⟨hblocks, hnodes, hcoins, forall_getElem?_erase hjournals, hkeys⟩
  | putKeys hash keys =>
    exact ⟨hblocks, hnodes, hcoins, hjournals, forall_getElem?_insert hkeys hw⟩
  | setTip hash => exact ⟨hblocks, hnodes, hcoins, hjournals, hkeys⟩

theorem within_empty : Within {} 0 where
  blocks := Nat.le_refl 0
  nodes := Nat.le_refl 0
  coins := Nat.le_refl 0
  journals := Nat.le_refl 0
  keys := Nat.le_refl 0

theorem Within.mono {m : Nat} (h : t.Within n) (hle : n ≤ m) : t.Within m where
  blocks := h.blocks.trans hle
  nodes := h.nodes.trans hle
  coins := h.coins.trans hle
  journals := h.journals.trans hle
  keys := h.keys.trans hle

/-- A write adds one entry at most. -/
theorem Within.write (h : t.Within n) (w : Write) : (t.write w).Within (n + 1) := by
  obtain ⟨hblocks, hnodes, hcoins, hjournals, hkeys⟩ := h.mono (Nat.le_succ n)
  cases w with
  | putBlock block =>
    exact ⟨Std.ExtTreeMap.size_insert_le.trans (Nat.succ_le_succ h.blocks), hnodes, hcoins,
      hjournals, hkeys⟩
  | putNode node =>
    exact ⟨hblocks, Std.ExtTreeMap.size_insert_le.trans (Nat.succ_le_succ h.nodes), hcoins,
      hjournals, hkeys⟩
  | setStatus hash status =>
    rw [Tables.write]
    split
    · exact ⟨hblocks, Std.ExtTreeMap.size_insert_le.trans (Nat.succ_le_succ h.nodes), hcoins,
        hjournals, hkeys⟩
    · exact ⟨hblocks, hnodes, hcoins, hjournals, hkeys⟩
  | putCoin o coin =>
    exact ⟨hblocks, hnodes, Std.ExtTreeMap.size_insert_le.trans (Nat.succ_le_succ h.coins),
      hjournals, hkeys⟩
  | deleteCoin o =>
    exact ⟨hblocks, hnodes, Std.ExtTreeMap.size_erase_le.trans hcoins, hjournals, hkeys⟩
  | putJournal hash spent =>
    exact ⟨hblocks, hnodes, hcoins,
      Std.ExtTreeMap.size_insert_le.trans (Nat.succ_le_succ h.journals), hkeys⟩
  | deleteJournal hash =>
    exact ⟨hblocks, hnodes, hcoins, Std.ExtTreeMap.size_erase_le.trans hjournals, hkeys⟩
  | putKeys hash keys =>
    exact ⟨hblocks, hnodes, hcoins, hjournals,
      Std.ExtTreeMap.size_insert_le.trans (Nat.succ_le_succ h.keys)⟩
  | setTip hash => exact ⟨hblocks, hnodes, hcoins, hjournals, hkeys⟩

theorem Within.writeAll (h : t.Within n) (batch : Batch) :
    (t.writeAll batch).Within (n + batch.length) := by
  induction batch generalizing t n with
  | nil => exact h
  | cons w batch ih =>
    have hrest := ih (h.write w)
    rwa [Nat.add_right_comm] at hrest

end Tables

/-- A persistent store is opened as it was left. -/
theorem PersistentStore.ofImage?_image {s : PersistentStore} (h : s.tables.Sized) {n : Nat}
    (hcount : s.tables.Within n) (hn : n < 2 ^ 64) : ofImage? s.image = some s := by
  have hread := (Wire.lawfulAt_tables h hcount hn).2 []
  rw [List.append_nil] at hread
  have hfile : s.image ≠ [] := by
    intro hnil
    rw [image] at hnil
    rw [hnil] at hread
    cases hread
  rw [ofImage?, if_neg hfile, image, hread]
  rfl

end PermissionedLedger
