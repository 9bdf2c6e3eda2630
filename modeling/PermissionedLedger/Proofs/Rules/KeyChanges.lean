import Mathlib
import PermissionedLedger.Proofs.Coins.Rights

/-!
# How keys change

Key changes are made one by one (`KeySets.Leads`): each adds a key that is absent or
removes one that is present, so that keys and changes determine what they lead to.

A block that passes `KeySets.applyBlock` leads from the keys before it to those after it
by the changes of its Root and Provision transactions (`Block.leads_of_applyBlock`). Each
of its transactions changes only the roles that its thread manages. With a verifier, it is
also signed by enough keys of the thread's own role, as that role stands just before it
(`Block.Governs`); which role and which thread that is says `Transaction.GovernsByRole`. Roles
that have to have a key keep one (`KeySets.Staffed`).
-/

namespace PermissionedLedger

variable {keys keys' k : KeySets} {thread : Thread} {op : KeyOp} {ops ops' : List KeyOp}
  {tx : Transaction} {txs txs' : List Transaction} {threshold : Nat} {verify? : Option Verifier}
  {verify : Verifier} {params : Params} {b : Block}

/-! ## Changes -/

namespace KeySets

/-- Changes lead from keys to keys. They are made one by one, and each adds an absent key or removes
one that is present. -/
inductive Leads : KeySets → List KeyOp → KeySets → Prop
  | nil (keys : KeySets) : Leads keys [] keys
  | add {keys keys' : KeySets} {role : Role} {key : PublicKey} {ops : List KeyOp}
      (absent : keys.contains role key = false) (rest : Leads (keys.insert role key) ops keys') :
      Leads keys (.add role key :: ops) keys'
  | revoke {keys keys' : KeySets} {role : Role} {key : PublicKey} {ops : List KeyOp}
      (present : keys.contains role key = true) (rest : Leads (keys.remove role key) ops keys') :
      Leads keys (.revoke role key :: ops) keys'

namespace Leads

theorem append (h : keys.Leads ops k) (h' : k.Leads ops' keys') :
    keys.Leads (ops ++ ops') keys' := by
  induction h with
  | nil => exact h'
  | add absent _ ih => exact .add absent (ih h')
  | revoke present _ ih => exact .revoke present (ih h')

/-- Keys and changes determine where they lead. -/
theorem unique (h : keys.Leads ops keys') (h' : keys.Leads ops k) : keys' = k := by
  induction h with
  | nil =>
    cases h'
    rfl
  | add _ _ ih =>
    cases h' with
    | add _ rest => exact ih rest
  | revoke _ _ ih =>
    cases h' with
    | revoke _ rest => exact ih rest

/-- A role that no change names keeps its keys. -/
theorem keys_eq {role : Role} (h : keys.Leads ops keys') (hother : ∀ op ∈ ops, op.role ≠ role) :
    keys'.keys role = keys.keys role := by
  induction h with
  | nil => rfl
  | add _ _ ih =>
    obtain ⟨hne, hrest⟩ := List.forall_mem_cons.1 hother
    rw [ih hrest, insert, keys_setKeys]
    exact if_neg (Ne.symm hne)
  | revoke _ _ ih =>
    obtain ⟨hne, hrest⟩ := List.forall_mem_cons.1 hother
    rw [ih hrest, remove, keys_setKeys]
    exact if_neg (Ne.symm hne)

end Leads

/-- Every role that has to have keys has some. -/
def Staffed (keys : KeySets) : Prop :=
  ∀ role : Role, role.isEssential = true → (keys.keys role).isEmpty = false

theorem staffed_iff : keys.Staffed ↔ keys.root.isEmpty = false ∧
    keys.provisioning.isEmpty = false ∧ keys.validating.isEmpty = false := by
  refine ⟨fun h => ⟨h .root rfl, h .provisioning rfl, h .validating rfl⟩, ?_⟩
  rintro ⟨hroot, hprovisioning, hvalidating⟩ role hessential
  cases role with
  | root => exact hroot
  | provisioning => exact hprovisioning
  | issuing => cases hessential
  | validating => exact hvalidating

theorem Staffed.insert (h : keys.Staffed) (role : Role) (key : PublicKey) :
    (keys.insert role key).Staffed := by
  intro r hr
  rw [KeySets.insert, keys_setKeys]
  split
  · exact Std.ExtTreeSet.isEmpty_eq_false_iff.2 Std.ExtTreeSet.insert_ne_empty
  · exact h r hr

/-- What it takes for a thread to make a change. -/
theorem of_apply (h : keys.apply thread op = .ok keys') :
    thread.manages op.role = true ∧ keys.Leads [op] keys' ∧ (keys.Staffed → keys'.Staffed) := by
  obtain ⟨hmanages, h⟩ := require_bind_eq_ok.1 h
  refine ⟨hmanages, ?_⟩
  cases op with
  | add role key =>
    obtain ⟨habsent, h⟩ := require_bind_eq_ok.1 h
    obtain rfl := Except.ok.inj h
    exact ⟨.add habsent (.nil _), fun hstaffed => hstaffed.insert role key⟩
  | revoke role key =>
    obtain ⟨hpresent, h⟩ := require_bind_eq_ok.1 h
    obtain ⟨hlast, h⟩ := require_bind_eq_ok.1 h
    obtain rfl := Except.ok.inj h
    refine ⟨.revoke hpresent (.nil _), fun hstaffed r hr => ?_⟩
    by_cases heq : r = role
    · subst heq
      exact hlast hr
    · rw [remove, keys_setKeys, if_neg heq]
      exact hstaffed r hr

theorem of_applyOps (h : ops.foldlM (fun ks op => ks.apply thread op) keys = .ok keys') :
    (∀ op ∈ ops, thread.manages op.role = true) ∧ keys.Leads ops keys' ∧
      (keys.Staffed → keys'.Staffed) := by
  induction ops generalizing keys with
  | nil =>
    obtain rfl := Except.ok.inj h
    exact ⟨fun _ hop => (nomatch hop), .nil _, fun hstaffed => hstaffed⟩
  | cons op ops ih =>
    obtain ⟨next, hop, hrest⟩ := bind_eq_ok.1 h
    obtain ⟨hmanages, hleads, hstaffed⟩ := of_apply hop
    obtain ⟨hmanages', hleads', hstaffed'⟩ := ih hrest
    exact ⟨List.forall_mem_cons.2 ⟨hmanages, hmanages'⟩, hleads.append hleads',
      fun h => hstaffed' (hstaffed h)⟩

end KeySets

/-! ## Transactions -/

/-- The key changes that a transaction makes: those of the threads that manage keys. -/
def Transaction.keyChanges (tx : Transaction) : List KeyOp :=
  match tx.continued? with
  | some .root | some .provision => tx.keyOps
  | some .issue | none => []

/-- The first input of a transaction carries valid signatures by enough different keys of a set. -/
def Transaction.SignedBy (verify : Verifier) (threshold : Nat) (keys : KeySet) (tx : Transaction) :
    Prop :=
  ∃ input, ∃ signers : List PublicKey,
    tx.inputs.head? = some input ∧ signers.Nodup ∧ threshold ≤ signers.length ∧
    ∀ key ∈ signers, key ∈ keys ∧ ∃ s ∈ input.unlock.toSignatures, s.key = key ∧
      verify key tx.signingHash.toList s.signature = true

/-- A transaction takes keys to keys by the authority of its thread. -/
structure Transaction.Governs (tx : Transaction) (keys keys' : KeySets) : Prop where
  /-- its changes are made one by one -/
  leads : keys.Leads tx.keyChanges keys'
  /-- a role changes only if the thread manages it -/
  managed : ∀ role, keys'.keys role ≠ keys.keys role →
    ∃ thread, tx.continued? = some thread ∧ thread.manages role = true
  /-- roles that have keys and need them keep some -/
  staffed : keys.Staffed → keys'.Staffed

/-- A transaction takes keys to keys, each role by the thread that manages it and with the signatures
of the role that has to sign there. -/
structure Transaction.GovernsByRole (verify : Verifier) (threshold : Nat) (tx : Transaction)
    (keys keys' : KeySets) : Prop extends tx.Governs keys keys' where
  /-- Root and Provisioning keys change in the Root thread, which Root keys sign -/
  root : keys'.root ≠ keys.root ∨ keys'.provisioning ≠ keys.provisioning →
    tx.continued? = some .root ∧ tx.SignedBy verify threshold keys.root
  /-- Issuing and Validating keys change in the Provision thread, which Provisioning keys sign -/
  provision : keys'.issuing ≠ keys.issuing ∨ keys'.validating ≠ keys.validating →
    tx.continued? = some .provision ∧ tx.SignedBy verify threshold keys.provisioning
  /-- Issuing keys sign the Issue thread, in which no keys change -/
  issue : tx.continued? = some .issue →
    keys' = keys ∧ tx.SignedBy verify threshold keys.issuing

namespace Transaction

theorem Governs.continued?_eq (h : tx.Governs keys keys') (role : Role)
    (hchanged : keys'.keys role ≠ keys.keys role) : tx.continued? = some role.manager := by
  obtain ⟨thread, hthread, hmanages⟩ := h.managed role hchanged
  rw [hthread, Thread.manages_iff.1 hmanages]

/-- A transaction that is signed as its thread asks has the signatures that each role asks for. -/
theorem Governs.byRole (h : tx.Governs keys keys')
    (hsigned : ∀ thread, tx.continued? = some thread →
      tx.SignedBy verify threshold (keys.keys thread.authority)) :
    tx.GovernsByRole verify threshold keys keys' where
  toGoverns := h
  root := by
    intro hchanged
    have hthread : tx.continued? = some .root :=
      hchanged.elim (h.continued?_eq .root) (h.continued?_eq .provisioning)
    exact ⟨hthread, hsigned _ hthread⟩
  provision := by
    intro hchanged
    have hthread : tx.continued? = some .provision :=
      hchanged.elim (h.continued?_eq .issuing) (h.continued?_eq .validating)
    exact ⟨hthread, hsigned _ hthread⟩
  issue := by
    intro hthread
    have hleads := h.leads
    rw [keyChanges, hthread] at hleads
    exact ⟨hleads.unique (.nil keys), hsigned _ hthread⟩

theorem Governs.of_keyChanges_eq_nil (h : tx.keyChanges = []) (keys : KeySets) :
    tx.Governs keys keys where
  leads := h ▸ .nil keys
  managed := fun _ hne => absurd rfl hne
  staffed := fun hstaffed => hstaffed

theorem keyChanges_of_isCoinbase (h : tx.isCoinbase = true) : tx.keyChanges = [] := by
  rw [keyChanges, continued?, h, if_pos rfl]

/-- The first input of a transaction that is authorized carries enough signatures. -/
theorem signedBy_of_authorize (hinputs : tx.inputs ≠ [])
    (h : keys.authorize threshold verify tx thread = .ok ()) :
    tx.SignedBy verify threshold (keys.keys thread.authority) := by
  obtain ⟨input, rest, heq⟩ := List.exists_cons_of_ne_nil hinputs
  have hsignatures : tx.threadSignatures = input.unlock.toSignatures := by
    rw [threadSignatures, heq]
    rfl
  have henough := require_eq_ok.1 h
  obtain ⟨hnodup, hsigners⟩ := validSigners_spec (keys.contains thread.authority) tx.signingHash
    verify tx.threadSignatures
  rw [← Std.ExtTreeSet.length_toList] at henough
  refine ⟨input, _, by rw [heq, List.head?_cons], hnodup, henough, fun key hkey => ?_⟩
  obtain ⟨hadmits, hs⟩ := hsigners key hkey
  rw [hsignatures] at hs
  exact ⟨hadmits, hs⟩

/-- What is checked of a transaction of a thread, and what it changes. -/
theorem applyTransaction_parts (ht : tx.continued? = some thread)
    (h : keys.applyTransaction threshold verify? tx thread = .ok keys') :
    tx.keyChanges.foldlM (fun ks op => ks.apply thread op) keys = .ok keys' ∧
      ∀ verify, verify? = some verify → keys.authorize threshold verify tx thread = .ok () := by
  rw [KeySets.applyTransaction.eq_def] at h
  rw [keyChanges, ht]
  rcases verify? with _ | verify
  · refine ⟨?_, nofun⟩
    cases thread <;> exact h
  · obtain ⟨_, hsigned, h⟩ := bind_eq_ok.1 h
    refine ⟨?_, fun verify' heq => ?_⟩
    · cases thread <;> exact h
    · obtain rfl := Option.some.inj heq
      exact hsigned

/-- A transaction of a thread governs by the authority of the thread. -/
theorem governs_of_applyTransaction (ht : tx.continued? = some thread)
    (h : keys.applyTransaction threshold verify? tx thread = .ok keys') :
    tx.Governs keys keys' := by
  obtain ⟨hmanages, hleads, hstaffed⟩ := KeySets.of_applyOps (applyTransaction_parts ht h).1
  refine ⟨hleads, fun role hchanged => ⟨thread, ht, ?_⟩, hstaffed⟩
  by_contra hother
  refine hchanged (hleads.keys_eq fun op hop hrole => hother ?_)
  rw [← hrole]
  exact hmanages op hop

end Transaction

/-! ## Blocks -/

namespace KeySets

/-- The parts of a list pass one after the other. -/
theorem applyAll_append (threshold : Nat) (verify? : Option Verifier) (keys : KeySets)
    (txs txs' : List Transaction) : applyAll threshold verify? keys (txs ++ txs') =
      applyAll threshold verify? keys txs >>= (applyAll threshold verify? · txs') := by
  induction txs generalizing keys with
  | nil => rfl
  | cons tx txs ih =>
    simp only [List.cons_append, applyAll]
    split
    · exact ih keys
    · split
      · exact ih _
      · rfl

/-- A transaction that passes alone continues no thread, or passes as one of its thread. -/
theorem applyAll_singleton (hordinary : tx.isCoinbase = false)
    (h : applyAll threshold verify? keys [tx] = .ok keys') :
    (tx.continued? = none ∧ keys' = keys) ∨ ∃ thread, tx.continued? = some thread ∧
      keys.applyTransaction threshold verify? tx thread = .ok keys' := by
  rw [Transaction.continued?, hordinary, if_neg Bool.false_ne_true]
  rw [applyAll] at h
  split at h
  · next hnone => exact Or.inl ⟨hnone, (Except.ok.inj h).symm⟩
  · next thread hthread =>
    refine Or.inr ⟨thread, hthread, ?_⟩
    split at h
    · next next hnext =>
      obtain rfl := Except.ok.inj h
      exact hnext
    · cases h

/-- Transactions that pass lead from keys to keys by their changes. -/
theorem leads_of_applyAll (hordinary : ∀ tx ∈ txs, tx.isCoinbase = false)
    (h : applyAll threshold verify? keys txs = .ok keys') :
    keys.Leads (txs.flatMap (·.keyChanges)) keys' ∧ (keys.Staffed → keys'.Staffed) := by
  induction txs generalizing keys with
  | nil =>
    obtain rfl := Except.ok.inj h
    exact ⟨.nil _, fun hstaffed => hstaffed⟩
  | cons tx txs ih =>
    obtain ⟨hfirst, hrest⟩ := List.forall_mem_cons.1 hordinary
    rw [← List.singleton_append, applyAll_append] at h
    obtain ⟨next, hnext, h⟩ := bind_eq_ok.1 h
    obtain ⟨hleads, hstaffed⟩ := ih hrest h
    have hgoverns : tx.Governs keys next := by
      rcases applyAll_singleton hfirst hnext with ⟨hnone, rfl⟩ | ⟨thread, hthread, happly⟩
      · exact .of_keyChanges_eq_nil (by rw [Transaction.keyChanges, hnone]) _
      · exact Transaction.governs_of_applyTransaction hthread happly
    exact ⟨hgoverns.leads.append hleads, fun h => hstaffed (hgoverns.staffed h)⟩

end KeySets

namespace Block

/-- A block takes keys to keys, each of its transactions by the authority of its thread. -/
structure Governs (b : Block) (keys keys' : KeySets) : Prop where
  /-- all changes are made one by one -/
  leads : keys.Leads (b.transactions.flatMap (·.keyChanges)) keys'
  /-- so are those of each transaction, over the keys just before it -/
  each : ∀ before tx after, b.transactions = before ++ tx :: after →
    ∃ k k', keys.Leads (before.flatMap (·.keyChanges)) k ∧ tx.Governs k k' ∧
      k'.Leads (after.flatMap (·.keyChanges)) keys'
  /-- roles that have keys and need them keep some -/
  staffed : keys.Staffed → keys'.Staffed

/-- Every transaction of a thread is signed by enough keys of the thread's role, as that role stands
just before the transaction. -/
def Authorized (verify : Verifier) (threshold : Nat) (b : Block) (keys : KeySets) : Prop :=
  ∀ before tx after thread k, b.transactions = before ++ tx :: after →
    tx.continued? = some thread → keys.Leads (before.flatMap (·.keyChanges)) k →
    tx.SignedBy verify threshold (k.keys thread.authority)

/-- The coinbase of a block that passes changes nothing, and the others pass one by one. -/
theorem of_applyBlock (hb : b.WellFormed) (h : keys.applyBlock params verify? b = .ok keys')
    {before after : List Transaction} (hsplit : b.transactions = before ++ tx :: after) :
    ∃ k k', keys.Leads (before.flatMap (·.keyChanges)) k ∧
      k'.Leads (after.flatMap (·.keyChanges)) keys' ∧
      ((tx.continued? = none ∧ k' = k) ∨ ∃ thread, tx.continued? = some thread ∧
        k.applyTransaction params.signatureThreshold verify? tx thread = .ok k') := by
  obtain ⟨coinbase, rest, heq, hcoinbase, hordinary⟩ := hb.coinbase_first
  have hnone := Transaction.keyChanges_of_isCoinbase hcoinbase
  rw [KeySets.applyBlock, heq, List.tail_cons] at h
  rw [heq] at hsplit
  rcases before with _ | ⟨c, before⟩
  · obtain ⟨rfl, rfl⟩ := List.cons.inj hsplit
    refine ⟨keys, keys, .nil _, (KeySets.leads_of_applyAll hordinary h).1, Or.inl ⟨?_, rfl⟩⟩
    rw [Transaction.continued?, hcoinbase, if_pos rfl]
  · rw [List.cons_append] at hsplit
    obtain ⟨rfl, rfl⟩ := List.cons.inj hsplit
    rw [KeySets.applyAll_append] at h
    obtain ⟨k, hbefore, h⟩ := bind_eq_ok.1 h
    rw [← List.singleton_append, KeySets.applyAll_append] at h
    obtain ⟨k', htx, hafter⟩ := bind_eq_ok.1 h
    have hlater : ∀ tx' ∈ after, tx'.isCoinbase = false := fun tx' htx' =>
      hordinary tx' (List.mem_append_right _ (List.mem_cons_of_mem _ htx'))
    have hearlier : ∀ tx' ∈ before, tx'.isCoinbase = false := fun tx' htx' =>
      hordinary tx' (List.mem_append_left _ htx')
    refine ⟨k, k', ?_, (KeySets.leads_of_applyAll hlater hafter).1, KeySets.applyAll_singleton
      (hordinary tx (List.mem_append_right _ (List.mem_cons_self ..))) htx⟩
    rw [List.flatMap_cons, hnone, List.nil_append]
    exact (KeySets.leads_of_applyAll hearlier hbefore).1

/-- A block that passes governs. -/
theorem governs_of_applyBlock (hb : b.WellFormed)
    (h : keys.applyBlock params verify? b = .ok keys') : b.Governs keys keys' := by
  obtain ⟨coinbase, rest, heq, hcoinbase, hordinary⟩ := hb.coinbase_first
  have hall := h
  rw [KeySets.applyBlock, heq, List.tail_cons] at hall
  obtain ⟨hleads, hstaffed⟩ := KeySets.leads_of_applyAll hordinary hall
  refine ⟨?_, fun before tx after hsplit => ?_, hstaffed⟩
  · rw [heq, List.flatMap_cons, Transaction.keyChanges_of_isCoinbase hcoinbase, List.nil_append]
    exact hleads
  · obtain ⟨k, k', hbefore, hafter, htx⟩ := of_applyBlock hb h hsplit
    refine ⟨k, k', hbefore, ?_, hafter⟩
    rcases htx with ⟨hnone, rfl⟩ | ⟨thread, hthread, happly⟩
    · exact .of_keyChanges_eq_nil (by rw [Transaction.keyChanges, hnone]) _
    · exact Transaction.governs_of_applyTransaction hthread happly

/-- If signatures were looked at, it is authorized. -/
theorem authorized_of_applyBlock (hb : b.WellFormed)
    (h : keys.applyBlock params (some verify) b = .ok keys') :
    b.Authorized verify params.signatureThreshold keys := by
  intro before tx after thread k hsplit hthread hleads
  obtain ⟨_, k', hbefore, -, htx⟩ := of_applyBlock hb h hsplit
  obtain rfl := hleads.unique hbefore
  have hmem : tx ∈ b.transactions := by
    rw [hsplit]
    exact List.mem_append_right _ (List.mem_cons_self ..)
  rcases htx with ⟨hnone, -⟩ | ⟨thread', hthread', happly⟩
  · cases hnone.symm.trans hthread
  · obtain rfl := Option.some.inj (hthread.symm.trans hthread')
    exact Transaction.signedBy_of_authorize (hb.transactions tx hmem).inputs_ne_nil
      ((Transaction.applyTransaction_parts hthread happly).2 verify rfl)

end Block

end PermissionedLedger
