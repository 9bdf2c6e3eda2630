import PermissionedLedger.Block.Basic
import PermissionedLedger.Network.Params
import PermissionedLedger.Rules.Check
import PermissionedLedger.Rules.Violation

/-!
# Authority

The governance transactions of a block take effect in block order on the keys in
force at its parent. Each must be signed by enough different keys of the role that
its thread answers to, as that role stands just before the transaction. Key
changes add an absent key or remove a present one, and never leave a role without
keys that has to have some.

Without a verifier signatures are not looked at, but changes still have to be
possible.
-/

namespace PermissionedLedger

/-- Whether a role must always keep a key. -/
def Role.isEssential : Role → Bool
  | .root | .provisioning | .validating => true
  | .issuing => false

/-- The different keys, among those that are admitted, whose signatures of the message verify. -/
def validSigners (admits : PublicKey → Bool) (message : Digest) (verify : Verifier)
    (signatures : List KeySignature) : KeySet :=
  .ofList <| (signatures.filter fun s =>
    admits s.key && verify s.key message.toList s.signature).map (·.key)

/-- The signatures of the first input. -/
def Transaction.threadSignatures (tx : Transaction) : List KeySignature :=
  (tx.inputs.head?.map (·.unlock.toSignatures)).getD []

/-- The key changes recorded after the first output. -/
def Transaction.keyOps (tx : Transaction) : List KeyOp :=
  tx.outputs.tail.filterMap fun out =>
    match out.lock with
    | .keyOp op => some op
    | _ => none

namespace KeySets

/-- Enough keys of the thread's role have signed the transaction. -/
def authorize (keys : KeySets) (threshold : Nat) (verify : Verifier) (tx : Transaction)
    (thread : Thread) : Except KeyOpFault Unit :=
  let role := thread.authority
  let valid := (validSigners (keys.contains role) tx.signingHash verify tx.threadSignatures).size
  require (threshold ≤ valid) (.tooFewSignatures valid role threshold)

/-- The keys after one change that a thread makes. -/
def apply (keys : KeySets) (thread : Thread) (op : KeyOp) : Except KeyOpFault KeySets := do
  require (thread.manages op.role = true) (.notManaged thread op.role)
  match op with
  | .add role key => do
    require (keys.contains role key = false) (.alreadyPresent key role)
    return keys.insert role key
  | .revoke role key => do
    require (keys.contains role key = true) (.notPresent key role)
    let rest := keys.remove role key
    require (role.isEssential = true → (rest.keys role).isEmpty = false) (.lastKey key role)
    return rest

/-- The keys after a governance transaction of a thread. -/
def applyTransaction (keys : KeySets) (threshold : Nat) (verify? : Option Verifier)
    (tx : Transaction) (thread : Thread) : Except KeyOpFault KeySets := do
  match verify? with
  | some verify => keys.authorize threshold verify tx thread
  | none => pure ()
  match thread with
  | .issue => return keys
  | .root | .provision => tx.keyOps.foldlM (fun ks op => ks.apply thread op) keys

/-- The keys after a list of transactions; ordinary ones change nothing. -/
def applyAll (threshold : Nat) (verify? : Option Verifier) :
    KeySets → List Transaction → Except Violation KeySets
  | keys, [] => .ok keys
  | keys, tx :: txs =>
    match tx.thread? with
    | none => applyAll threshold verify? keys txs
    | some thread =>
      match keys.applyTransaction threshold verify? tx thread with
      | .ok next => applyAll threshold verify? next txs
      | .error fault => .error (.keyOp tx.hash fault)

/-- The keys after a block. The coinbase takes no part in governance. -/
def applyBlock (keys : KeySets) (params : Params) (verify? : Option Verifier) (block : Block) :
    Except Violation KeySets :=
  applyAll params.signatureThreshold verify? keys block.transactions.tail

end KeySets

end PermissionedLedger
