import PermissionedLedger.Block.Basic

/-!
# Finality

A transaction may carry a lock time: a height or a second that the block holding
it has to be past. The lock is waived if every input says so.
-/

namespace PermissionedLedger.Transaction

/-- Whether the transaction may be in a block at a height and a time. -/
def isFinal (tx : Transaction) (height : Nat) (time : Time.Instant) : Bool :=
  let bound := if tx.lockTime < lockTimeThreshold then height else time.seconds.toNat
  tx.lockTime = 0 || tx.lockTime.toNat < bound || tx.inputs.all (·.sequence = finalSequence)

end PermissionedLedger.Transaction
