import Mathlib
import PermissionedLedger.Proofs.Identity.Preimages

/-!
# What a signature commits to

A transaction makes two byte strings, that of its digest and that which its inputs sign. Both begin
with the same part (`Transaction.body`), apart from a mark in front of what is signed. This part
pins everything but the unlock data and is pinned by it (`eq_of_body_append_eq`, `body_congr`).

So two transactions sign the same bytes exactly if they differ in unlock data at most, and hash the
same bytes exactly if they are the same. The mark keeps the two kinds apart: read as the beginning
of what is hashed, it announces more inputs than a transaction of less than `2 ^ 32` bytes has room
for (`signed_ne_hashed`). All of this is `signature_commits`.
-/

namespace PermissionedLedger.Transaction

variable {tx tx' : Transaction}

/-- Unlock data are no part of what is shared. -/
theorem body_congr (hversion : tx.version = tx'.version) (hlockTime : tx.lockTime = tx'.lockTime)
    (houtputs : tx.outputs = tx'.outputs)
    (houtlines : tx.inputs.map TxInput.outline = tx'.inputs.map TxInput.outline) :
    tx.body = tx'.body := by
  have hlength : tx.inputs.length = tx'.inputs.length := by
    simpa using congrArg List.length houtlines
  rw [body, body, TxInput.flatMap_hashed, TxInput.flatMap_hashed, hversion, hlockTime, houtputs,
    houtlines, hlength]

theorem signed_eq_iff (h : tx.size < 2 ^ 32) (h' : tx'.size < 2 ^ 32) :
    tx.signed = tx'.signed ↔
      tx.version = tx'.version ∧ tx.lockTime = tx'.lockTime ∧ tx.outputs = tx'.outputs ∧
        tx.inputs.map TxInput.outline = tx'.inputs.map TxInput.outline := by
  constructor
  · intro heq
    have hbody : tx.body = tx'.body := List.append_cancel_left heq
    exact (eq_of_body_append_eq h h' (congrArg (· ++ []) hbody)).1
  · rintro ⟨hversion, hlockTime, houtputs, houtlines⟩
    rw [signed, signed, body_congr hversion hlockTime houtputs houtlines]

/-! ## Two kinds of byte strings -/

/-- The mark, read as the beginning of what is hashed: a version and a number of inputs. -/
theorem signingMark_eq : signingMark =
    hashedWord 0x73736574 ++ (hashedLength 0x2d617265 ++ [0x74, 0x78, 0x2d, 0x76, 0x31]) := by
  decide

/-- An input takes more bytes than the output that it refers to is named with. -/
theorem length_inputs_le (tx : Transaction) : 36 * tx.inputs.length ≤ tx.size := by
  have hinput : ∀ i, 36 ≤ Wire.txInput.size i := fun i => Nat.le_add_right 36 _
  have hinputs := Codec.mul_length_le_size hinput tx.inputs
  rw [size_eq]
  omega

/-- What is signed is never what is hashed. -/
theorem signed_ne_hashed (tx : Transaction) (h' : tx'.size < 2 ^ 32) :
    tx.signed ≠ tx'.hashed := by
  intro heq
  rw [signed, signingMark_eq, hashed, body] at heq
  simp only [List.append_assoc] at heq
  obtain ⟨-, hcounts⟩ := delimits_hashedWord trivial trivial heq
  obtain ⟨hcount, -⟩ := delimits_hashedLength (by decide) (inputs_short h').1 hcounts
  have hroom := tx'.length_inputs_le
  omega

/-- Of transactions of less than `2 ^ 32` bytes, two sign the same bytes exactly if they have the
same version, lock time and outputs and the same inputs but for their unlock data. They hash the
same bytes exactly if they are the same. No bytes are both signed and hashed. -/
theorem signature_commits (tx tx' : Transaction) (h : tx.size < 2 ^ 32) (h' : tx'.size < 2 ^ 32) :
    (tx.signed = tx'.signed ↔
      tx.version = tx'.version ∧ tx.lockTime = tx'.lockTime ∧ tx.outputs = tx'.outputs ∧
        tx.inputs.map (fun i => (i.previous, i.sequence)) =
          tx'.inputs.map fun i => (i.previous, i.sequence)) ∧
    (tx.hashed = tx'.hashed ↔ tx = tx') ∧
    tx.signed ≠ tx'.hashed :=
  ⟨signed_eq_iff h h', ⟨hashed_injective h h', congrArg hashed⟩, signed_ne_hashed tx h'⟩

end PermissionedLedger.Transaction

namespace PermissionedLedger

namespace Sample

/-- A transaction with one input, before it is signed. -/
def unsigned : Transaction where
  version := 1
  inputs := [⟨⟨.ofNat 5, 0⟩, .signatures [], finalSequence⟩]
  outputs := [⟨10, .multiSig 1 [.ofNat 1, .ofNat 2]⟩]
  lockTime := 0

/-- The same with a signature. -/
def signedByOne : Transaction :=
  { unsigned with inputs := [⟨⟨.ofNat 5, 0⟩, .signatures [⟨.ofNat 1, [7]⟩], finalSequence⟩] }

end Sample

/-- A signature changes what is hashed and not what is signed. -/
theorem Transaction.signature_commits_before_signing :
    Sample.unsigned.size < 2 ^ 32 ∧ Sample.signedByOne.size < 2 ^ 32 ∧
      Sample.unsigned.signed = Sample.signedByOne.signed ∧
      Sample.unsigned.hashed ≠ Sample.signedByOne.hashed ∧
      Sample.unsigned.signed ≠ Sample.signedByOne.hashed := by
  have hsize : Sample.unsigned.size < 2 ^ 32 := by decide
  have hsize' : Sample.signedByOne.size < 2 ^ 32 := by decide
  obtain ⟨hsigned, hhashed, hapart⟩ :=
    signature_commits Sample.unsigned Sample.signedByOne hsize hsize'
  have hne : Sample.unsigned ≠ Sample.signedByOne := by decide
  exact ⟨hsize, hsize', hsigned.2 ⟨rfl, rfl, rfl, rfl⟩, fun heq => hne (hhashed.1 heq), hapart⟩

end PermissionedLedger
