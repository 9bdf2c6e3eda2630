import Mathlib
import PermissionedLedger.Network.Genesis
import PermissionedLedger.Proofs.Work.Effort
import PermissionedLedger.Rules.Standalone

/-!
# What a checked block looks like

`Block.check` is a sequence of checks, so that it succeeds only if each of them does
(`bind_eq_ok`). What the ledger relies on later is collected here:

* the **shape** of the transactions (`Block.WellFormed`): one coinbase, which comes
  first; inputs that exist and differ; different digests; locks in order. The block of
  genesis, which is never checked, has the same shape;
* the **work** of the header, which is positive (`Block.work_pos_of_check`).
-/

namespace PermissionedLedger

section Checks

variable {ε ε' α β : Type}

/-- A sequence succeeds if both parts do. -/
theorem bind_eq_ok {x : Except ε α} {f : α → Except ε β} {b : β} :
    (x >>= f) = .ok b ↔ ∃ a, x = .ok a ∧ f a = .ok b := by
  rcases x with e | a
  · constructor
    · intro h
      cases h
    · rintro ⟨a, h, -⟩
      cases h
  · constructor
    · intro h
      exact ⟨a, rfl, h⟩
    · rintro ⟨a', h, hf⟩
      obtain rfl := Except.ok.inj h
      exact hf

/-- Renaming faults changes no success. -/
@[simp] theorem mapError_eq_ok {x : Except ε α} {f : ε → ε'} {a : α} :
    x.mapError f = .ok a ↔ x = .ok a := by
  rcases x with e | b <;> simp [Except.mapError]

/-- A check of a sum of cases succeeds as the case does. -/
theorem forall_of_requireAll {check : α → Except ε Unit} {as : List α} {u : Unit}
    (h : requireAll check as = .ok u) {a : α} (ha : a ∈ as) : check a = .ok () :=
  requireAll_eq_ok.1 h a ha

end Checks

/-! ## The shape of the transactions -/

/-- The shape of a transaction that can be in a block. -/
structure Transaction.WellFormed (tx : Transaction) : Prop where
  /-- there are inputs -/
  inputs_ne_nil : tx.inputs ≠ []
  /-- no output is spent twice -/
  inputs_nodup : (tx.inputs.map (·.previous)).Nodup
  /-- locks can be satisfied -/
  lock_check : ∀ output ∈ tx.outputs, output.lock.check = .ok ()

/-- The shape of a block that can be on a chain. -/
structure Block.WellFormed (b : Block) : Prop where
  /-- the coinbase comes first, and is the only one -/
  coinbase_first : ∃ coinbase rest, b.transactions = coinbase :: rest ∧
    coinbase.isCoinbase = true ∧ ∀ tx ∈ rest, tx.isCoinbase = false
  /-- the transactions are in order -/
  transactions : ∀ tx ∈ b.transactions, tx.WellFormed
  /-- digests differ -/
  hashes_nodup : (b.transactions.map (·.hash)).Nodup

namespace Transaction

theorem lock_check_of_checkOutputs {before : Int} {outputs : List TxOutput}
    (h : checkOutputs before outputs = .ok ()) {output : TxOutput} (hmem : output ∈ outputs) :
    output.lock.check = .ok () := by
  induction outputs generalizing before with
  | nil => cases hmem
  | cons out outs ih =>
    rw [checkOutputs] at h
    obtain ⟨-, h⟩ := require_bind_eq_ok.1 h
    obtain ⟨-, h⟩ := require_bind_eq_ok.1 h
    obtain ⟨-, h⟩ := require_bind_eq_ok.1 h
    obtain ⟨_, hlock, h⟩ := bind_eq_ok.1 h
    rcases List.mem_cons.1 hmem with rfl | hmem
    · exact hlock
    · exact ih h hmem

theorem inputs_nodup_of_checkDistinctInputs {tx : Transaction}
    (h : tx.checkDistinctInputs = .ok ()) : (tx.inputs.map (·.previous)).Nodup := by
  rw [checkDistinctInputs] at h
  split at h
  · cases h
  · next hnone => exact (firstRepeat?_eq_none.1 hnone).1

/-- The parts of the check of a transaction. -/
theorem check_parts {params : Params} {tx : Transaction} (h : tx.check params = .ok ()) :
    tx.inputs ≠ [] ∧ tx.outputs ≠ [] ∧ checkOutputs 0 tx.outputs = .ok () ∧
      tx.checkDistinctInputs = .ok () ∧ tx.checkKind = .ok () := by
  rw [check] at h
  obtain ⟨_, hparts, h⟩ := bind_eq_ok.1 h
  obtain ⟨_, hkind, -⟩ := bind_eq_ok.1 h
  rw [mapError_eq_ok, checkParts] at hparts
  obtain ⟨hinputs, hparts⟩ := require_bind_eq_ok.1 hparts
  obtain ⟨houtputs, hparts⟩ := require_bind_eq_ok.1 hparts
  obtain ⟨-, hparts⟩ := require_bind_eq_ok.1 hparts
  obtain ⟨_, hvalues, hdistinct⟩ := bind_eq_ok.1 hparts
  exact ⟨hinputs, houtputs, hvalues, hdistinct, hkind⟩

theorem wellFormed_of_check {params : Params} {tx : Transaction} (h : tx.check params = .ok ()) :
    tx.WellFormed := by
  obtain ⟨hinputs, -, houtputs, hdistinct, -⟩ := check_parts h
  exact ⟨hinputs, inputs_nodup_of_checkDistinctInputs hdistinct,
    fun output hmem => lock_check_of_checkOutputs houtputs hmem⟩

/-- A coinbase spends nothing, and any other transaction what its inputs refer to. -/
theorem WellFormed.spends_nodup {tx : Transaction} (h : tx.WellFormed) : tx.spends.Nodup := by
  rw [spends]
  split
  · exact List.nodup_nil
  · exact h.inputs_nodup

theorem WellFormed.spends_ne_nil {tx : Transaction} (h : tx.WellFormed)
    (hordinary : tx.isCoinbase = false) : tx.spends ≠ [] := by
  rw [spends, hordinary, if_neg Bool.false_ne_true]
  intro hnil
  exact h.inputs_ne_nil (List.map_eq_nil_iff.1 hnil)

end Transaction

namespace Block

variable {b : Block} {params : Params} {now : Time.Instant} {verify : Verifier} {flags : AddFlags}

/-- The parts of the check of a block that are about its transactions. -/
theorem check_parts (h : b.check params now verify flags = .ok ()) :
    b.checkSizes params = .ok () ∧ b.checkCoinbases = .ok () ∧
      (∀ tx ∈ b.transactions, tx.check params = .ok ()) ∧ b.checkContents = .ok () := by
  rw [check] at h
  obtain ⟨_, -, h⟩ := bind_eq_ok.1 h
  obtain ⟨_, hsizes, h⟩ := bind_eq_ok.1 h
  obtain ⟨_, hcoinbases, h⟩ := bind_eq_ok.1 h
  obtain ⟨_, htxs, h⟩ := bind_eq_ok.1 h
  obtain ⟨_, hcontents, -⟩ := bind_eq_ok.1 h
  exact ⟨mapError_eq_ok.1 hsizes, mapError_eq_ok.1 hcoinbases,
    fun tx hmem => forall_of_requireAll htxs hmem, mapError_eq_ok.1 hcontents⟩

/-- The transactions of a checked block are not too large. -/
theorem size_lt_of_check (h : b.check params now verify flags = .ok ()) {tx : Transaction}
    (hmem : tx ∈ b.transactions) : tx.size < 2 ^ 32 := by
  obtain ⟨hsizes, -⟩ := check_parts h
  rw [checkSizes] at hsizes
  obtain ⟨-, hsizes⟩ := require_bind_eq_ok.1 hsizes
  obtain ⟨-, hsizes⟩ := require_bind_eq_ok.1 hsizes
  obtain ⟨-, hsizes⟩ := require_bind_eq_ok.1 hsizes
  have hdeclared : b.header.size.toNat = b.transactionsSize := require_eq_ok.1 hsizes
  have hword := b.header.size.toNat_lt
  have hle : tx.size ≤ b.transactionsSize := by
    rw [transactionsSize]
    exact List.le_sum_of_mem (List.mem_map.2 ⟨tx, hmem, rfl⟩)
  omega

/-- The header carries the Merkle root of the transactions, which have different digests. -/
theorem checkContents_eq_ok (h : b.checkContents = .ok ()) :
    b.merkleRoot = b.header.merkleRoot ∧ (b.transactions.map (·.hash)).Nodup := by
  rw [checkContents] at h
  obtain ⟨hroot, hrepeat⟩ := require_bind_eq_ok.1 h
  split at hrepeat
  · cases hrepeat
  · next hnone => exact ⟨hroot, (firstRepeat?_eq_none.1 hnone).1⟩

theorem wellFormed_of_check (h : b.check params now verify flags = .ok ()) : b.WellFormed := by
  obtain ⟨-, hcoinbases, htxs, hcontents⟩ := check_parts h
  refine ⟨?_, fun tx hmem => Transaction.wellFormed_of_check (htxs tx hmem),
    (checkContents_eq_ok hcontents).2⟩
  rw [checkCoinbases] at hcoinbases
  obtain ⟨hfirst, hrest⟩ := require_bind_eq_ok.1 hcoinbases
  rcases htx : b.transactions with _ | ⟨coinbase, rest⟩
  · simp [htx] at hfirst
  · rw [htx] at hfirst hrest
    refine ⟨coinbase, rest, rfl, hfirst, fun tx hmem => ?_⟩
    split at hrest
    · cases hrest
    · next hnone => exact List.findIdx?_eq_none_iff.1 hnone tx hmem

theorem wellFormed_genesis (params : Params) : params.genesis.WellFormed where
  coinbase_first := ⟨Params.genesisCoinbase, [], rfl, rfl, fun _ h => nomatch h⟩
  transactions := by
    intro tx hmem
    obtain rfl := List.mem_singleton.1 hmem
    refine ⟨List.cons_ne_nil _ _, List.nodup_singleton _, fun output houtput => ?_⟩
    obtain ⟨thread, -, rfl⟩ := List.mem_map.1 houtput
    rfl
  hashes_nodup := List.nodup_singleton _

/-- The genesis coinbase repeats the height zero. -/
theorem coinbaseHeight?_genesis (params : Params) : params.genesis.coinbaseHeight? = some 0 :=
  rfl

end Block

/-! ## The work of the header -/

namespace Work

theorem work_pos {bits : UInt32} {limit : Nat} (h : (permitted? bits limit).isSome = true) :
    0 < work bits := by
  obtain ⟨target, htarget⟩ := Option.isSome_iff_exists.1 h
  obtain ⟨hsome, hlimits⟩ := Option.filter_eq_some_iff.1 htarget
  have hpos : 0 < target := Nat.pos_of_ne_zero (of_decide_eq_true hlimits).1
  rw [work_of_target? hsome hpos]
  exact quotient_pos (succ_lt_bound_of_target? hsome)

end Work

theorem Block.work_pos_of_check {b : Block} {params : Params} {now : Time.Instant}
    {verify : Verifier} {flags : AddFlags} (h : b.check params now verify flags = .ok ()) :
    0 < Work.work b.header.bits := by
  rw [check] at h
  obtain ⟨_, hheader, -⟩ := bind_eq_ok.1 h
  rw [mapError_eq_ok, Header.check] at hheader
  obtain ⟨-, hheader⟩ := require_bind_eq_ok.1 hheader
  obtain ⟨_, hwork, -⟩ := bind_eq_ok.1 hheader
  rw [Header.checkWork] at hwork
  split at hwork
  · exact Work.work_pos (require_eq_ok.1 hwork)
  · rw [mapError_eq_ok, Work.check] at hwork
    split at hwork
    · cases hwork
    · next target hsome => exact Work.work_pos (by rw [hsome]; rfl)

end PermissionedLedger
