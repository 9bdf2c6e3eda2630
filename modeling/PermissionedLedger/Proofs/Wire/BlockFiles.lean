import Mathlib
import PermissionedLedger.Proofs.Time.Rfc3339
import PermissionedLedger.Proofs.Wire.Codecs
import PermissionedLedger.Wire.Ledger

/-!
# Block files are read back

A block file is read as the blocks that were written, whatever follows them, and no strict prefix
of it is read at all. The sizes that the rules limit are those of encodings
(`Wire.blocks_roundTrip`).

The values are those whose lists have lengths that fit in eight bytes (`Block.Sized`).
-/

namespace PermissionedLedger

open Codec
open Time (Instant)

/-! ## Lengths -/

/-- Lengths in the lock fit in eight bytes. -/
def Lock.Sized : Lock → Prop
  | .multiSig _ keys => keys.length < 2 ^ 64
  | .data bytes => bytes.length < 2 ^ 64
  | _ => True

/-- Lengths in the unlock data fit in eight bytes. -/
def Unlock.Sized : Unlock → Prop
  | .coinbase data => data.length < 2 ^ 64
  | .signatures ss => ss.length < 2 ^ 64 ∧ ∀ s ∈ ss, s.signature.length < 2 ^ 64

/-- Lengths in the transaction fit in eight bytes. -/
structure Transaction.Sized (tx : Transaction) : Prop where
  /-- the number of inputs does -/
  inputs : tx.inputs.length < 2 ^ 64
  /-- and lengths in them do -/
  unlocks : ∀ i ∈ tx.inputs, i.unlock.Sized
  /-- the number of outputs does -/
  outputs : tx.outputs.length < 2 ^ 64
  /-- and lengths in them do -/
  locks : ∀ o ∈ tx.outputs, o.lock.Sized

/-- Lengths in the block fit in eight bytes. -/
structure Block.Sized (b : Block) : Prop where
  /-- that of the signature does -/
  signature : b.header.signature.length < 2 ^ 64
  /-- the number of transactions does -/
  count : b.transactions.length < 2 ^ 64
  /-- and lengths in them do -/
  transactions : ∀ tx ∈ b.transactions, tx.Sized

namespace Wire

/-! ## Values are read back -/

theorem lawfulAt_digest (d : Digest) : digest.LawfulAt d := (lawfulAt_vector _).map rfl

theorem lawfulAt_publicKey (k : PublicKey) : publicKey.LawfulAt k := (lawfulAt_vector _).map rfl

theorem lawfulAt_role (r : Role) : role.LawfulAt r := by
  cases r with
  | root => exact .union 0 rfl (by decide) rfl (lawfulAt_const _)
  | provisioning => exact .union 1 rfl (by decide) rfl (lawfulAt_const _)
  | issuing => exact .union 2 rfl (by decide) rfl (lawfulAt_const _)
  | validating => exact .union 3 rfl (by decide) rfl (lawfulAt_const _)

theorem lawfulAt_thread (t : Thread) : thread.LawfulAt t := by
  cases t with
  | root => exact .union 0 rfl (by decide) rfl (lawfulAt_const _)
  | provision => exact .union 1 rfl (by decide) rfl (lawfulAt_const _)
  | issue => exact .union 2 rfl (by decide) rfl (lawfulAt_const _)

theorem lawfulAt_keyOp (op : KeyOp) : keyOp.LawfulAt op := by
  have hfields : ∀ make : Role → PublicKey → KeyOp, make op.role op.key = op →
      ((role.pair publicKey).map (fun v => make v.1 v.2)
        fun op : KeyOp => (op.role, op.key)).LawfulAt op :=
    fun _ hmake => .map (.pair (lawfulAt_role _) (lawfulAt_publicKey _)) hmake
  rw [keyOp]
  cases op with
  | add r k => exact .union 0 rfl (by decide) rfl (hfields .add rfl)
  | revoke r k => exact .union 1 rfl (by decide) rfl (hfields .revoke rfl)

theorem lawfulAt_lock {l : Lock} (h : l.Sized) : lock.LawfulAt l := by
  cases l with
  | payToKey k => exact .union 0 rfl (by decide) rfl ((lawfulAt_publicKey k).map rfl)
  | multiSig n ks =>
    have hkeys : publicKey.list.LawfulAt ks := .list h fun k _ => lawfulAt_publicKey k
    exact .union 1 rfl (by decide) rfl (((lawfulAt_uint8 n).pair hkeys).map rfl)
  | thread t => exact .union 2 rfl (by decide) rfl ((lawfulAt_thread t).map rfl)
  | keyOp op => exact .union 3 rfl (by decide) rfl ((lawfulAt_keyOp op).map rfl)
  | data d => exact .union 4 rfl (by decide) rfl ((lawfulAt_bytes h).map rfl)

theorem lawfulAt_keySignature {s : KeySignature} (h : s.signature.length < 2 ^ 64) :
    keySignature.LawfulAt s :=
  ((lawfulAt_publicKey s.key).pair (lawfulAt_bytes h)).map rfl

theorem lawfulAt_unlock {u : Unlock} (h : u.Sized) : unlock.LawfulAt u := by
  cases u with
  | coinbase d => exact .union 0 rfl (by decide) rfl ((lawfulAt_bytes h).map rfl)
  | signatures ss =>
    have hsignatures : keySignature.list.LawfulAt ss :=
      .list h.1 fun s hs => lawfulAt_keySignature (h.2 s hs)
    exact .union 1 rfl (by decide) rfl (hsignatures.map rfl)

theorem lawfulAt_outPoint (o : OutPoint) : outPoint.LawfulAt o :=
  ((lawfulAt_digest _).pair (lawfulAt_uint32 _)).map rfl

theorem lawfulAt_txInput {i : TxInput} (h : i.unlock.Sized) : txInput.LawfulAt i :=
  ((lawfulAt_outPoint _).pair ((lawfulAt_unlock h).pair (lawfulAt_uint32 _))).map rfl

theorem lawfulAt_txOutput {o : TxOutput} (h : o.lock.Sized) : txOutput.LawfulAt o :=
  ((lawfulAt_int64 _).pair (lawfulAt_lock h)).map rfl

theorem lawfulAt_transaction {tx : Transaction} (h : tx.Sized) : transaction.LawfulAt tx := by
  have hinputs : txInput.list.LawfulAt tx.inputs :=
    .list h.inputs fun i hi => lawfulAt_txInput (h.unlocks i hi)
  have houtputs : txOutput.list.LawfulAt tx.outputs :=
    .list h.outputs fun o ho => lawfulAt_txOutput (h.locks o ho)
  exact ((lawfulAt_uint32 _).pair (hinputs.pair (houtputs.pair (lawfulAt_uint32 _)))).map rfl

theorem lawfulAt_instant (i : Instant) : instant.LawfulAt i := by
  have hshort : (Time.Rfc3339.write i).length < 2 ^ 64 :=
    (Time.Rfc3339.length_write_le i).trans_lt (by decide)
  exact (lawfulAt_text (Time.Rfc3339.ascii_write i) hshort).convert (Time.Rfc3339.read?_write i)

theorem lawfulAt_header {h : Header} (hsignature : h.signature.length < 2 ^ 64) :
    header.LawfulAt h :=
  ((lawfulAt_uint32 _).pair <| (lawfulAt_digest _).pair <| (lawfulAt_digest _).pair <|
    (lawfulAt_instant _).pair <| (lawfulAt_uint32 _).pair <| (lawfulAt_uint64 _).pair <|
    (lawfulAt_uint32 _).pair <| (lawfulAt_publicKey _).pair <| lawfulAt_bytes hsignature).map rfl

theorem lawfulAt_block {b : Block} (h : b.Sized) : block.LawfulAt b := by
  have htransactions : transaction.list.LawfulAt b.transactions :=
    .list h.count fun tx htx => lawfulAt_transaction (h.transactions tx htx)
  exact ((lawfulAt_header h.signature).pair htransactions).map rfl

/-! ## What is read does not depend on what follows -/

theorem extends_digest : digest.Extends := (extends_vector 32).map _ _

theorem extends_publicKey : publicKey.Extends := (extends_vector 32).map _ _

theorem extends_role : role.Extends := by
  refine .union fun n c hc => ?_
  obtain ⟨r, -, rfl⟩ := Option.map_eq_some_iff.1 hc
  exact extends_const r

theorem extends_thread : thread.Extends := by
  refine .union fun n c hc => ?_
  obtain ⟨t, -, rfl⟩ := Option.map_eq_some_iff.1 hc
  exact extends_const t

theorem extends_keyOp : keyOp.Extends := by
  rw [keyOp]
  refine .union fun n c hc => ?_
  split at hc
  · obtain rfl := Option.some.inj hc
    exact (extends_role.pair extends_publicKey).map _ _
  · obtain rfl := Option.some.inj hc
    exact (extends_role.pair extends_publicKey).map _ _
  · cases hc

theorem extends_lock : lock.Extends := by
  refine .union fun n c hc => ?_
  split at hc
  · obtain rfl := Option.some.inj hc
    exact extends_publicKey.map _ _
  · obtain rfl := Option.some.inj hc
    exact (extends_uint8.pair extends_publicKey.list).map _ _
  · obtain rfl := Option.some.inj hc
    exact extends_thread.map _ _
  · obtain rfl := Option.some.inj hc
    exact extends_keyOp.map _ _
  · obtain rfl := Option.some.inj hc
    exact extends_bytes.map _ _
  · cases hc

theorem extends_unlock : unlock.Extends := by
  refine .union fun n c hc => ?_
  split at hc
  · obtain rfl := Option.some.inj hc
    exact extends_bytes.map _ _
  · obtain rfl := Option.some.inj hc
    exact ((extends_publicKey.pair extends_bytes).map _ _).list.map _ _
  · cases hc

theorem extends_txInput : txInput.Extends :=
  (((extends_digest.pair extends_uint32).map _ _).pair
    (extends_unlock.pair extends_uint32)).map _ _

theorem extends_txOutput : txOutput.Extends := (extends_int64.pair extends_lock).map _ _

theorem extends_transaction : transaction.Extends :=
  (extends_uint32.pair (extends_txInput.list.pair (extends_txOutput.list.pair
    extends_uint32))).map _ _

theorem extends_header : header.Extends :=
  (extends_uint32.pair <| extends_digest.pair <| extends_digest.pair <|
    (extends_text.convert _ _).pair <| extends_uint32.pair <| extends_uint64.pair <|
    extends_uint32.pair <| extends_publicKey.pair extends_bytes).map _ _

theorem extends_block : block.Extends := (extends_header.pair extends_transaction.list).map _ _

/-! ## Block files -/

/-- A block file is read as the blocks that it was written from, whatever follows, and a strict
prefix of it is not read. The sizes of blocks and transactions are those of their encodings. -/
theorem blocks_roundTrip {blocks : List Block} (hcount : blocks.length < 2 ^ 64)
    (hsized : ∀ b ∈ blocks, b.Sized) :
    (∀ rest, readBlocks? (writeBlocks blocks ++ rest) = some blocks) ∧
    (∀ front more, front ++ more = writeBlocks blocks → more ≠ [] → readBlocks? front = none) ∧
    ∀ b ∈ blocks, b.size = (block.encode b).length ∧
      ∀ tx ∈ b.transactions, tx.size = (transaction.encode tx).length := by
  have hlawful : block.list.LawfulAt blocks :=
    .list hcount fun b hb => lawfulAt_block (hsized b hb)
  refine ⟨fun rest => ?_, fun front more heq hmore => ?_, fun b hb => ⟨?_, fun tx htx => ?_⟩⟩
  · rw [readBlocks?, writeBlocks, hlawful.2, Option.map_some]
  · rw [readBlocks?, decode_prefix_eq_none hlawful extends_block.list heq hmore, Option.map_none]
  · exact (lawfulAt_block (hsized b hb)).1
  · exact (lawfulAt_transaction ((hsized b hb).transactions tx htx)).1

end Wire

/-! ## A sample file -/

namespace Sample

/-- The middle of a leap second in the year 10000. -/
def lateSecond : Instant := ⟨253402300859, 1500000000, by decide⟩

/-- A transaction with unlock data and locks of many forms, and a negative value. -/
def mixedTransaction : Transaction where
  version := 1
  inputs :=
    [⟨.null, .coinbase [1, 2], 0⟩,
      ⟨.null, .signatures [⟨default, [3]⟩, ⟨default, []⟩], finalSequence⟩]
  outputs :=
    [⟨-1, .payToKey default⟩, ⟨0, .multiSig 1 [default, default]⟩, ⟨1, .thread .provision⟩,
      ⟨2, .keyOp (.revoke .validating default)⟩, ⟨3, .data [4, 5, 6]⟩]
  lockTime := 7

/-- A block at that time. -/
def lateBlock : Block where
  header :=
    { version := 1
      previous := default
      merkleRoot := default
      time := lateSecond
      bits := 0
      nonce := 0
      size := 0
      validator := default
      signature := [8] }
  transactions := [mixedTransaction]

theorem sized_mixedTransaction : mixedTransaction.Sized where
  inputs := by decide
  unlocks := by simp [mixedTransaction, Unlock.Sized]
  outputs := by decide
  locks := by simp [mixedTransaction, Lock.Sized]

theorem sized_lateBlock : lateBlock.Sized where
  signature := by decide
  count := by decide
  transactions := List.forall_mem_cons.2 ⟨sized_mixedTransaction, List.forall_mem_nil _⟩

end Sample

/-- A file of two such blocks is read back, and not without its last byte. -/
theorem Wire.blocks_roundTrip_late :
    Wire.readBlocks? (Wire.writeBlocks [Sample.lateBlock, Sample.lateBlock] ++ [9]) =
      some [Sample.lateBlock, Sample.lateBlock] ∧
    (∀ front more, front ++ more = Wire.writeBlocks [Sample.lateBlock, Sample.lateBlock] →
      more ≠ [] → Wire.readBlocks? front = none) ∧
    Sample.lateBlock.size = (Wire.block.encode Sample.lateBlock).length ∧
    Sample.mixedTransaction.size = (Wire.transaction.encode Sample.mixedTransaction).length := by
  have hsized : ∀ b ∈ [Sample.lateBlock, Sample.lateBlock], b.Sized := by
    simp only [List.forall_mem_cons]
    exact ⟨Sample.sized_lateBlock, Sample.sized_lateBlock, List.forall_mem_nil _⟩
  obtain ⟨hread, hprefix, hsizes⟩ := Wire.blocks_roundTrip (by decide) hsized
  obtain ⟨hblock, htransactions⟩ := hsizes Sample.lateBlock (List.mem_cons_self ..)
  exact ⟨hread [9], hprefix, hblock, htransactions _ (List.mem_cons_self ..)⟩

end PermissionedLedger
