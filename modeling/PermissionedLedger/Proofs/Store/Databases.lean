import Mathlib
import PermissionedLedger.Proofs.Store.Reliable
import PermissionedLedger.Proofs.Wire.Records
import PermissionedLedger.Store.Databases

/-!
# Databases hold tables

A database holds a table if every value stands encoded under the bytes of its key, and nothing else
stands there (`Database.Holds`). Values that fit in their format are read back, one by one and all
together.

Databases that hold the tables of a store (`Databases.Stores`) answer as the tables do, and a batch
does to them what it does to the tables, or fails in the same way (`Stores.commit`).
-/

namespace PermissionedLedger

/-! ## Keys -/

theorem Digest.toList_injective : Function.Injective Digest.toList := fun _ _ => Digest.toList_inj

theorem OutPoint.length_keyBytes (o : OutPoint) : o.keyBytes.length = 36 := by
  rw [keyBytes, List.length_append, Digest.length_toList, Bytes.length_ofNatBE]

/-- What a key belongs to is read back from it. -/
theorem OutPoint.ofKeyBytes_keyBytes (o : OutPoint) : ofKeyBytes o.keyBytes = .ok o := by
  have hhash : o.keyBytes.take 32 = o.txHash.toList := List.take_left' (Digest.length_toList _)
  have hindex : Bytes.toNatBE (o.keyBytes.drop 32) = o.index.toNat := by
    have hfits : o.index.toNat < 256 ^ 4 := o.index.toNat_lt
    rw [keyBytes, List.drop_left' (Digest.length_toList _), Bytes.toNatBE, Bytes.ofNatBE,
      List.reverse_reverse, Bytes.toNatLE_ofNatLE hfits]
  rw [ofKeyBytes, dif_pos o.length_keyBytes]
  refine congrArg Except.ok (congrArg₂ OutPoint.mk (Digest.toList_inj ?_) ?_)
  · simp [Digest.toList, hhash]
  · rw [hindex, UInt32.ofNat_toNat]

theorem OutPoint.keyBytes_injective : Function.Injective OutPoint.keyBytes := by
  intro a b h
  have hread := OutPoint.ofKeyBytes_keyBytes a
  rw [h, OutPoint.ofKeyBytes_keyBytes] at hread
  exact (Except.ok.inj hread).symm

/-! ## Reading -/

theorem mapM_eq_ok {α β ε : Type} {f : α → Except ε β} {as : List α}
    (h : ∀ a ∈ as, ∃ b, f a = .ok b) :
    as.mapM f = .ok (as.filterMap fun a => (f a).toOption) := by
  induction as with
  | nil => rfl
  | cons a as ih =>
    obtain ⟨⟨b, hb⟩, hrest⟩ := List.forall_mem_cons.1 h
    rw [List.mapM_cons, hb, ih hrest, List.filterMap_cons, hb]
    rfl

/-- Where every value can be read, all can, and in whatever order they stand. -/
theorem mapM_of_perm {α β γ ε : Type} {f : α → Except ε β} {as : List α} {cs : List γ}
    {enc : γ → α} {val : γ → β} (hperm : as.Perm (cs.map enc))
    (h : ∀ c ∈ cs, f (enc c) = .ok (val c)) :
    ∃ bs, as.mapM f = .ok bs ∧ bs.Perm (cs.map val) := by
  have hall : ∀ a ∈ as, ∃ b, f a = .ok b := by
    intro a ha
    obtain ⟨c, hc, rfl⟩ := List.mem_map.1 (hperm.mem_iff.1 ha)
    exact ⟨val c, h c hc⟩
  refine ⟨_, mapM_eq_ok hall, (hperm.filterMap _).trans ?_⟩
  have hread : cs.filterMap ((fun a => (f a).toOption) ∘ enc) = cs.filterMap (some ∘ val) :=
    List.filterMap_congr fun c hc => by rw [Function.comp_apply, h c hc]; rfl
  rw [List.filterMap_map, hread, List.filterMap_eq_map]

namespace Database

variable {κ ν : Type} [Ord κ] [Std.TransOrd κ]
  {key : κ → Bytes} {c : Codec ν} {db : Database} {m : Std.ExtTreeMap κ ν} {k : κ} {v : ν}

theorem read_encode (h : c.LawfulAt v) : read c (c.encode v) = .ok v := by
  have hread := h.2 []
  rw [List.append_nil] at hread
  rw [read, hread]

/-- A database holds the values of a table, encoded, under the bytes of their keys. -/
structure Holds (key : κ → Bytes) (c : Codec ν) (db : Database) (m : Std.ExtTreeMap κ ν) :
    Prop where
  /-- what stands under the bytes of a key -/
  lookup (k : κ) : db[key k]? = m[k]?.map c.encode
  /-- other bytes are not used -/
  keys (bytes : Bytes) (h : bytes ∈ db) : ∃ k, key k = bytes

theorem Holds.empty : Holds key c ∅ (∅ : Std.ExtTreeMap κ ν) where
  lookup k := by rw [Std.ExtTreeMap.getElem?_empty, Std.ExtTreeMap.getElem?_empty]; rfl
  keys bytes h := absurd h Std.ExtTreeMap.not_mem_empty

theorem Holds.get? (h : Holds key c db m) (hv : ∀ v, m[k]? = some v → c.LawfulAt v) :
    db.get? c (key k) = .ok m[k]? := by
  rw [Database.get?, h.lookup]
  rcases hm : m[k]? with _ | v
  · rfl
  · rw [Option.map_some]
    dsimp only
    rw [read_encode (hv v hm)]
    rfl

variable [Std.LawfulEqOrd κ]

/-- The entries of the database are those of the table, in the order of the bytes. -/
theorem Holds.toList_perm (h : Holds key c db m) (hkey : Function.Injective key) :
    db.toList.Perm (m.toList.map fun e => (key e.1, c.encode e.2)) := by
  have hentries : ∀ e ∈ m.toList, ∀ e' ∈ m.toList,
      (key e.1, c.encode e.2) = (key e'.1, c.encode e'.2) → e = e' := by
    intro e he e' he' heq
    have hsame : e.1 = e'.1 := hkey (Prod.mk.inj heq).1
    rw [Std.ExtTreeMap.mem_toList_iff_getElem?_eq_some] at he he'
    rw [hsame, he'] at he
    exact Prod.ext hsame (Option.some.inj he).symm
  refine (List.perm_ext_iff_of_nodup (nodup_toList db)
    ((nodup_toList m).map_on hentries)).2 fun e => ?_
  rw [Std.ExtTreeMap.mem_toList_iff_getElem?_eq_some, List.mem_map]
  constructor
  · intro he
    obtain ⟨k, hk⟩ := h.keys e.1 (Std.ExtTreeMap.mem_iff_isSome_getElem?.2 (he ▸ rfl))
    rw [← hk, h.lookup, Option.map_eq_some_iff] at he
    obtain ⟨v, hv, henc⟩ := he
    exact ⟨(k, v), Std.ExtTreeMap.mem_toList_iff_getElem?_eq_some.2 hv, Prod.ext hk henc⟩
  · rintro ⟨e', he', rfl⟩
    rw [h.lookup, Std.ExtTreeMap.mem_toList_iff_getElem?_eq_some.1 he']
    rfl

variable [DecidableEq κ]

theorem Holds.put (h : Holds key c db m) (hkey : Function.Injective key) (k : κ) (v : ν) :
    Holds key c (db.put c (key k) v) (m.insert k v) where
  lookup k' := by
    rw [Database.put, getElem?_insert_eq, getElem?_insert_eq, h.lookup]
    by_cases heq : k' = k
    · rw [if_pos heq, if_pos (congrArg key heq)]
      rfl
    · rw [if_neg heq, if_neg (hkey.ne heq)]
  keys bytes hin := by
    rcases Std.ExtTreeMap.mem_insert.1 hin with heq | hin
    · exact ⟨k, Std.LawfulEqCmp.compare_eq_iff_eq.1 heq⟩
    · exact h.keys bytes hin

theorem Holds.erase (h : Holds key c db m) (hkey : Function.Injective key) (k : κ) :
    Holds key c (db.erase (key k)) (m.erase k) where
  lookup k' := by
    rw [getElem?_erase_eq, getElem?_erase_eq, h.lookup]
    by_cases heq : k' = k
    · rw [if_pos heq, if_pos (congrArg key heq)]
      rfl
    · rw [if_neg heq, if_neg (hkey.ne heq)]
  keys bytes hin := h.keys bytes (Std.ExtTreeMap.mem_of_mem_erase hin)

end Database

namespace Databases

variable {d : Databases} {t t' : Tables} {w : Write} {batch : Batch}

/-- The databases of a store with some tables, whose values fit in their formats and whose nodes
stand under their own digests. -/
structure Stores (d : Databases) (t : Tables) : Prop where
  tip : d.properties[tipKey]? = t.tip.map Digest.toList
  blocks : d.blocks.Holds Digest.toList Wire.block t.blocks
  nodes : d.nodes.Holds Digest.toList Wire.node t.nodes
  coins : d.coins.Holds OutPoint.keyBytes Wire.coin t.coins
  journals : d.journals.Holds Digest.toList Wire.spentCoin.list t.journals
  keys : d.keys.Holds Digest.toList Wire.keySets t.keys
  sized : t.Sized
  named (hash : Digest) (n : NodeRecord) (h : t.nodes[hash]? = some n) : n.hash = hash

theorem stores_empty : Stores {} {} where
  tip := Std.ExtTreeMap.getElem?_empty
  blocks := .empty
  nodes := .empty
  coins := .empty
  journals := .empty
  keys := .empty
  sized := Tables.sized_empty
  named _ _ h := nomatch Std.ExtTreeMap.getElem?_empty.symm.trans h

/-! ## Answers -/

theorem Stores.tip_eq (h : d.Stores t) : d.tip = .ok t.tip := by
  rw [Databases.tip, h.tip]
  rcases t.tip with _ | hash
  · rfl
  · rw [Option.map_some]
    dsimp only
    rw [Digest.ofBytes?_toList]

theorem Stores.block?_eq (h : d.Stores t) (hash : Digest) : d.block? hash = .ok t.blocks[hash]? :=
  h.blocks.get? fun b hb => Wire.lawfulAt_block (h.sized.blocks hash b hb)

theorem Stores.node?_eq (h : d.Stores t) (hash : Digest) : d.node? hash = .ok t.nodes[hash]? :=
  h.nodes.get? fun n hn => Wire.lawfulAt_node (h.sized.nodes hash n hn)

theorem Stores.coin?_eq (h : d.Stores t) (o : OutPoint) : d.coin? o = .ok t.coins[o]? :=
  h.coins.get? fun c hc => Wire.lawfulAt_coin (h.sized.coins o c hc)

theorem Stores.journal?_eq (h : d.Stores t) (hash : Digest) :
    d.journal? hash = .ok t.journals[hash]? :=
  h.journals.get? fun j hj => Wire.lawfulAt_journal (h.sized.journals hash j hj)

theorem Stores.keys?_eq (h : d.Stores t) (hash : Digest) : d.keys? hash = .ok t.keys[hash]? :=
  h.keys.get? fun s hs => Wire.lawfulAt_keySets (h.sized.keys hash s hs)

/-- All nodes are read, in some order. -/
theorem Stores.allNodes_perm (h : d.Stores t) :
    ∃ nodes, d.allNodes = .ok nodes ∧ nodes.Perm (t.nodes.toList.map (·.2)) :=
  mapM_of_perm (h.nodes.toList_perm Digest.toList_injective) fun e he =>
    Database.read_encode <| Wire.lawfulAt_node <| h.sized.nodes e.1 e.2 <|
      Std.ExtTreeMap.mem_toList_iff_getElem?_eq_some.1 he

/-- All coins are read, with what they belong to. -/
theorem Stores.allCoins_eq (h : d.Stores t) : d.allCoins = .ok t.coins := by
  have hread : ∀ e ∈ t.coins.toList,
      readCoin (e.1.keyBytes, Wire.coin.encode e.2) = .ok (id e) := by
    intro e he
    have hcoin := h.sized.coins e.1 e.2 (Std.ExtTreeMap.mem_toList_iff_getElem?_eq_some.1 he)
    rw [readCoin, OutPoint.ofKeyBytes_keyBytes]
    dsimp only [bind, Except.bind]
    rw [Database.read_encode (Wire.lawfulAt_coin hcoin)]
    rfl
  obtain ⟨entries, hentries, hperm⟩ :=
    mapM_of_perm (h.coins.toList_perm OutPoint.keyBytes_injective) hread
  rw [List.map_id] at hperm
  rw [allCoins, hentries]
  exact congrArg Except.ok (Wire.ofList_eq_of_perm hperm)

/-! ## Writes -/

theorem Stores.putNode (h : d.Stores t) {n : NodeRecord} (hn : n.Sized) :
    (d.putNode n).Stores (t.write (.putNode n)) :=
  { h with
    nodes := h.nodes.put Digest.toList_injective n.hash n
    sized := h.sized.write (w := .putNode n) hn
    named := fun hash n' hn' => by
      rw [Tables.write, getElem?_insert_eq] at hn'
      split at hn'
      · next heq => rw [← Option.some.inj hn', heq]
      · exact h.named hash n' hn' }

/-- A status is put back with its node, under the same digest. -/
theorem Stores.setStatus (h : d.Stores t) {hash : Digest} {n : NodeRecord}
    (hn : t.nodes[hash]? = some n) (status : BlockStatus) :
    d.write (.setStatus hash status) = .ok (d.putNode { n with status }) ∧
      (d.putNode { n with status }).Stores (t.write (.setStatus hash status)) := by
  have hsized := h.sized.nodes hash n hn
  have hsame : t.write (.setStatus hash status) = t.write (.putNode { n with status }) := by
    simp only [Tables.write, hn, h.named hash n hn]
  constructor
  · rw [Databases.write, h.node?_eq, hn]
    rfl
  · rw [hsame]
    exact h.putNode ⟨hsized.signature, hsized.height⟩

/-- A write that can be made of the tables can be made of the databases. -/
theorem Stores.write_ok (h : d.Stores t) (hw : w.Sized) (ht : t.tryWrite w = .ok t') :
    ∃ d', d.write w = .ok d' ∧ d'.Stores t' := by
  have hsized := h.sized.write hw
  cases w with
  | putBlock block =>
    obtain rfl := Except.ok.inj ht
    exact ⟨_, rfl, { h with
      blocks := h.blocks.put Digest.toList_injective block.hash block
      sized := hsized }⟩
  | putNode node =>
    obtain rfl := Except.ok.inj ht
    exact ⟨_, rfl, h.putNode hw⟩
  | setStatus hash status =>
    rw [Tables.tryWrite] at ht
    split at ht
    · next hmem =>
      obtain rfl := Except.ok.inj ht
      rw [Std.ExtTreeMap.mem_iff_isSome_getElem?, Option.isSome_iff_exists] at hmem
      obtain ⟨n, hn⟩ := hmem
      exact ⟨_, h.setStatus hn status⟩
    · cases ht
  | putCoin o coin =>
    obtain rfl := Except.ok.inj ht
    exact ⟨_, rfl, { h with
      coins := h.coins.put OutPoint.keyBytes_injective o coin
      sized := hsized }⟩
  | deleteCoin o =>
    obtain rfl := Except.ok.inj ht
    exact ⟨_, rfl, { h with
      coins := h.coins.erase OutPoint.keyBytes_injective o
      sized := hsized }⟩
  | putJournal hash spent =>
    obtain rfl := Except.ok.inj ht
    exact ⟨_, rfl, { h with
      journals := h.journals.put Digest.toList_injective hash spent
      sized := hsized }⟩
  | deleteJournal hash =>
    obtain rfl := Except.ok.inj ht
    exact ⟨_, rfl, { h with
      journals := h.journals.erase Digest.toList_injective hash
      sized := hsized }⟩
  | putKeys hash keys =>
    obtain rfl := Except.ok.inj ht
    exact ⟨_, rfl, { h with
      keys := h.keys.put Digest.toList_injective hash keys
      sized := hsized }⟩
  | setTip hash =>
    obtain rfl := Except.ok.inj ht
    refine ⟨_, rfl, { h with
      tip := ?_
      sized := hsized }⟩
    rw [getElem?_insert_eq, if_pos rfl]
    rfl

/-- A write that fails on the tables fails on the databases. -/
theorem Stores.write_error (h : d.Stores t) {e : StoreError} (ht : t.tryWrite w = .error e) :
    d.write w = .error (.store e) := by
  cases w with
  | setStatus hash status =>
    rw [Tables.tryWrite] at ht
    split at ht
    · cases ht
    · next hmem =>
      obtain rfl := Except.error.inj ht
      rw [Std.ExtTreeMap.mem_iff_isSome_getElem?, Bool.not_eq_true, Option.isSome_eq_false_iff,
        Option.isNone_iff_eq_none] at hmem
      rw [Databases.write, h.node?_eq, hmem]
      rfl
  | _ => cases ht

/-! ## Batches -/

theorem Stores.writeAll_ok (h : d.Stores t) (hbatch : ∀ w ∈ batch, w.Sized)
    (ht : t.tryWriteAll batch = .ok t') : ∃ d', d.writeAll batch = .ok d' ∧ d'.Stores t' := by
  induction batch generalizing d t with
  | nil =>
    obtain rfl := Except.ok.inj ht
    exact ⟨d, rfl, h⟩
  | cons w batch ih =>
    obtain ⟨hw, hrest⟩ := List.forall_mem_cons.1 hbatch
    rw [Tables.tryWriteAll] at ht
    split at ht
    · next next hnext =>
      obtain ⟨d', hd', hstores⟩ := h.write_ok hw hnext
      obtain ⟨d'', hd'', hstores'⟩ := ih hstores hrest ht
      refine ⟨d'', ?_, hstores'⟩
      rw [writeAll, hd']
      exact hd''
    · cases ht

theorem Stores.writeAll_error (h : d.Stores t) (hbatch : ∀ w ∈ batch, w.Sized) {e : StoreError}
    (ht : t.tryWriteAll batch = .error e) : d.writeAll batch = .error (.store e) := by
  induction batch generalizing d t with
  | nil => cases ht
  | cons w batch ih =>
    obtain ⟨hw, hrest⟩ := List.forall_mem_cons.1 hbatch
    rw [Tables.tryWriteAll] at ht
    rw [writeAll]
    split at ht
    · next next hnext =>
      obtain ⟨d', hd', hstores⟩ := h.write_ok hw hnext
      rw [hd']
      exact ih hstores hrest ht
    · next e' hnext =>
      obtain rfl := Except.error.inj ht
      rw [h.write_error hnext]
      rfl

/-- A batch is committed as it is to the tables. -/
theorem Stores.commit (h : d.Stores t) (hbatch : ∀ w ∈ batch, w.Sized) :
    (d.commit batch).1 = ((PersistentStore.mk t).commit batch).1.mapError .store ∧
      (d.commit batch).2.Stores ((PersistentStore.mk t).commit batch).2.tables := by
  rw [Databases.commit, PersistentStore.commit]
  rcases ht : t.tryWriteAll batch with e | t'
  · rw [h.writeAll_error hbatch ht]
    exact ⟨rfl, h⟩
  · obtain ⟨d', hd', hstores⟩ := h.writeAll_ok hbatch ht
    rw [hd']
    exact ⟨rfl, hstores⟩

end Databases

end PermissionedLedger
