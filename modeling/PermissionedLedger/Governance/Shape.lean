import PermissionedLedger.Rules.Check
import PermissionedLedger.Rules.Violation

/-!
# The shape of governance transactions

What an ordinary transaction may hold of governance, seen by itself: a thread
output only as its first output and only one of them, key changes only in the Root
and Provision threads and nothing else there, and in the Issue thread coins only.
-/

namespace PermissionedLedger.Transaction

/-- Whether an output may follow the thread output of a thread that changes keys. -/
def checkKeyOpOutput (thread : Thread) (out : TxOutput) : Except GovernanceFault Unit := do
  require (out.lock.isKeyOp = true) (.otherOutput thread)
  require (out.value = 0) .keyOpCarriesValue

/-- The outputs after the thread output. -/
def checkThreadRest (tx : Transaction) (thread : Thread) (rest : List TxOutput) :
    Except GovernanceFault Unit :=
  match thread with
  | .root | .provision => do
    require (tx.inputs.length = 1) (.inputCount thread tx.inputs.length)
    require (rest ≠ []) (.noKeyOps thread)
    requireAll (checkKeyOpOutput thread) rest
  | .issue => do
    require (rest ≠ []) .mintsNothing
    require (rest.all (!·.lock.isGovernance) = true) .issueGovernance

/-- Whether the first input carries signatures, as that of a thread must. -/
def isThreadSigned (tx : Transaction) : Bool :=
  match tx.inputs with
  | ⟨_, .signatures (_ :: _), _⟩ :: _ => true
  | _ => false

/-- The governance outputs of a transaction that is not a coinbase. -/
def checkGovernance (tx : Transaction) : Except GovernanceFault Unit :=
  let threads := tx.outputs.countP (·.lock.thread?.isSome)
  match tx.thread?, tx.outputs with
  | some thread, out :: rest => do
    require (threads ≤ 1) .severalThreads
    require (out.value = 0) (.threadCarriesValue thread out.value)
    require (tx.isThreadSigned = true) .threadUnsigned
    tx.checkThreadRest thread rest
  | _, outs => do
    require (threads = 0) .threadNotFirst
    require (outs.all (!·.lock.isKeyOp) = true) .keyOpOutsideThread

end PermissionedLedger.Transaction
