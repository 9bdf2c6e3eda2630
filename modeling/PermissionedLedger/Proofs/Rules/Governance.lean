import Mathlib
import PermissionedLedger.Proofs.Identity.Preimages
import PermissionedLedger.Proofs.Rules.WellFormed

/-!
# Governance in a checked transaction

Of the outputs of a transaction that was checked, only the first can be that of a thread.
It has no value then, and the transaction is not a coinbase (`Transaction.Governed`).
-/

namespace PermissionedLedger

theorem Lock.thread?_eq_some {lock : Lock} {t : Thread} :
    lock.thread? = some t ↔ lock = .thread t := by
  cases lock with
  | thread u => exact Option.some_inj.trans ⟨congrArg _, Lock.thread.inj⟩
  | _ => exact ⟨fun h => (nomatch h), fun h => (nomatch h)⟩

namespace Transaction

variable {tx : Transaction} {params : Params} {t : Thread}

/-- The thread that a transaction continues. The coinbase of genesis begins threads and continues
none. -/
def continued? (tx : Transaction) : Option Thread := if tx.isCoinbase then none else tx.thread?

theorem continued?_eq_some : tx.continued? = some t ↔
    tx.isCoinbase = false ∧ ∃ output, tx.outputs.head? = some output ∧ output.lock = .thread t := by
  rw [continued?, thread?]
  rcases tx.isCoinbase
  · simp only [Bool.false_eq_true, if_false, true_and, Option.bind_eq_some_iff,
      Lock.thread?_eq_some]
  · simp

/-- Thread outputs are where they can be found. -/
structure Governed (tx : Transaction) : Prop where
  /-- they come first, have no value, and are not those of a coinbase -/
  first : ∀ {i : Nat} {output : TxOutput} {t : Thread}, tx.outputs[i]? = some output →
    output.lock = .thread t → i = 0 ∧ output.value = 0 ∧ tx.isCoinbase = false
  /-- outputs have different numbers -/
  short : tx.outputs.length < 2 ^ 32

/-- Outputs of which none is that of a thread. -/
theorem Governed.of_none (hnone : ∀ output ∈ tx.outputs, output.lock.thread? = none)
    (hshort : tx.outputs.length < 2 ^ 32) : tx.Governed where
  first := by
    intro i output t houtput hlock
    have hthread := hnone output (List.mem_of_getElem? houtput)
    rw [hlock] at hthread
    cases hthread
  short := hshort

/-- A transaction continues the thread of which it has an output. -/
theorem Governed.continued?_eq (h : tx.Governed) {output : TxOutput} (hmem : output ∈ tx.outputs)
    (hlock : output.lock = .thread t) : tx.continued? = some t := by
  obtain ⟨i, hout⟩ := List.mem_iff_getElem?.1 hmem
  obtain ⟨rfl, -, hordinary⟩ := h.first hout hlock
  exact continued?_eq_some.2
    ⟨hordinary, output, (List.head?_eq_getElem? ..).trans hout, hlock⟩

theorem governed_of_check (h : tx.check params = .ok ()) (hshort : tx.outputs.length < 2 ^ 32) :
    tx.Governed := by
  obtain ⟨-, -, -, -, hkind⟩ := check_parts h
  rw [checkKind] at hkind
  split at hkind
  · -- a coinbase has no part in governance
    refine .of_none (fun output hmem => ?_) hshort
    rw [mapError_eq_ok, checkCoinbase] at hkind
    split at hkind
    · obtain ⟨-, hkind⟩ := require_bind_eq_ok.1 hkind
      have hfalse : tx.hasGovernanceOutputs = false := require_eq_ok.1 hkind
      rw [hasGovernanceOutputs, List.any_eq_false] at hfalse
      have hlock := hfalse output hmem
      cases hcases : output.lock with
      | thread t =>
        rw [hcases] at hlock
        exact absurd rfl hlock
      | _ => rfl
    · cases hkind
  · next hordinary =>
    obtain ⟨_, -, hkind⟩ := bind_eq_ok.1 hkind
    rw [mapError_eq_ok, checkGovernance] at hkind
    split at hkind
    · next thread out rest hthread houts =>
      obtain ⟨hcount, hkind⟩ := require_bind_eq_ok.1 hkind
      obtain ⟨hvalue, -⟩ := require_bind_eq_ok.1 hkind
      have hout : out.lock.thread? = some thread := by
        rw [thread?, houts] at hthread
        exact hthread
      refine ⟨?_, hshort⟩
      intro i output t houtput hlock
      rw [houts] at houtput hcount
      rcases i with _ | i
      · obtain rfl := Option.some.inj houtput
        exact ⟨rfl, hvalue, by simpa using hordinary⟩
      · -- it would be the second
        have hrest : 0 < rest.countP (·.lock.thread?.isSome) := List.countP_pos_iff.2
          ⟨output, List.mem_of_getElem? houtput, by rw [hlock]; rfl⟩
        rw [List.countP_cons_of_pos (by rw [hout]; rfl)] at hcount
        omega
    · obtain ⟨hcount, -⟩ := require_bind_eq_ok.1 hkind
      refine .of_none (fun output hmem => ?_) hshort
      have hnone := List.countP_eq_zero.1 hcount output hmem
      rwa [Bool.not_eq_true, Option.isSome_eq_false_iff, Option.isNone_iff_eq_none] at hnone

end Transaction

/-- The transactions of a block that was checked are in order. -/
theorem Block.governed_of_check {b : Block} {params : Params} {now : Time.Instant}
    {verify : Verifier} {flags : AddFlags} (h : b.check params now verify flags = .ok ())
    {tx : Transaction} (hmem : tx ∈ b.transactions) : tx.Governed := by
  obtain ⟨-, -, htxs, -⟩ := check_parts h
  exact Transaction.governed_of_check (htxs tx hmem)
    (Transaction.outputs_short (size_lt_of_check h hmem)).1

end PermissionedLedger
