import Mathlib
import PermissionedLedger.Proofs.Chain.Runs
import PermissionedLedger.Proofs.Identity.MerkleRoots
import PermissionedLedger.Proofs.Identity.Preimages

/-!
# What the digest of a block pins

Two checked blocks with one digest are the same but for the signature of the header, or two
different messages that were hashed for them have one digest (`Block.eq_or_collision`).

The header pins itself and the Merkle root, the root pins the digests of the transactions,
which are different, and these pin the transactions: the declared size in the header is the
actual one, so that no length is too large to be hashed whole.
-/

namespace PermissionedLedger

namespace Block

variable {params : Params} {verify verify' : Verifier} {now now' : Time.Instant}
  {flags flags' : AddFlags} {b b' : Block}

/-- The messages that are hashed for a block: for its header, its transactions and the inner nodes
of its Merkle tree. -/
def messages (b : Block) : List Bytes :=
  b.header.hashed :: Merkle.treeMessages (b.transactions.map (·.hashed))

theorem map_hashed (b : Block) :
    (b.transactions.map (·.hashed)).map Digest.ofMessage = b.transactions.map (·.hash) := by
  rw [List.map_map]
  rfl

/-- No transaction of a checked block hashes as many bytes as an inner node. -/
theorem length_hashed_of_check (h : b.check params now verify flags = .ok ()) :
    ∀ x ∈ b.transactions.map (·.hashed), x.length ≠ 64 := by
  obtain ⟨-, -, htxs, -⟩ := check_parts h
  refine List.forall_mem_map.2 fun tx hmem => ?_
  obtain ⟨hinputs, houtputs, -⟩ := Transaction.check_parts (htxs tx hmem)
  exact (Transaction.lt_length_hashed hinputs houtputs).ne'

/-- Without collisions, the digest pins the block but for the signature. -/
theorem eq_of_apart (h : b.check params now verify flags = .ok ())
    (h' : b'.check params now' verify' flags' = .ok ()) (heq : b.hash = b'.hash)
    (hap : Apart (b.messages ++ b'.messages)) :
    { b with header := { b.header with signature := b'.header.signature } } = b' := by
  obtain ⟨-, -, -, hcontents⟩ := check_parts h
  obtain ⟨-, -, -, hcontents'⟩ := check_parts h'
  obtain ⟨hroot, hnodup⟩ := checkContents_eq_ok hcontents
  obtain ⟨hroot', hnodup'⟩ := checkContents_eq_ok hcontents'
  have hheader : { b.header with signature := b'.header.signature } = b'.header :=
    Header.eq_of_hashed_eq (hap _ (List.mem_append_left _ (List.mem_cons_self ..)) _
      (List.mem_append_right _ (List.mem_cons_self ..)) heq)
  have hroots : b.merkleRoot = b'.merkleRoot := by
    rw [hroot, hroot', ← hheader]
  rw [merkleRoot, merkleRoot, ← map_hashed, ← map_hashed] at hroots
  rw [← map_hashed] at hnodup hnodup'
  have hne : ∀ {b : Block} {now verify flags}, b.check params now verify flags = .ok () →
      b.transactions.map (·.hashed) ≠ [] := by
    intro b now verify flags h
    obtain ⟨coinbase, rest, htxs, -⟩ := (wellFormed_of_check h).coinbase_first
    rw [htxs]
    exact List.cons_ne_nil _ _
  have hmessages := Merkle.root_injective (hne h) (hne h') (length_hashed_of_check h)
    (length_hashed_of_check h') hnodup hnodup' (hap.mono (List.append_subset.2
      ⟨List.Subset.trans (List.subset_cons_self ..) (List.subset_append_left ..),
        List.Subset.trans (List.subset_cons_self ..) (List.subset_append_right ..)⟩)) hroots
  have htransactions : b.transactions = b'.transactions :=
    eq_of_map_eq (fun tx htx tx' htx' => Transaction.hashed_injective (size_lt_of_check h htx)
      (size_lt_of_check h' htx')) hmessages
  rw [hheader, htransactions]

/-- Checked blocks with one digest are the same but for the signature, or two different messages
that are hashed for them have one digest. -/
theorem eq_or_collision (h : b.check params now verify flags = .ok ())
    (h' : b'.check params now' verify' flags' = .ok ()) (heq : b.hash = b'.hash) :
    { b with header := { b.header with signature := b'.header.signature } } = b' ∨
      ∃ x ∈ b.messages ++ b'.messages, ∃ y ∈ b.messages ++ b'.messages,
        x ≠ y ∧ Digest.ofMessage x = Digest.ofMessage y := by
  by_cases hap : Apart (b.messages ++ b'.messages)
  · exact Or.inl (eq_of_apart h h' heq hap)
  · rw [Apart] at hap
    push Not at hap
    obtain ⟨x, hx, y, hy, hsame, hne⟩ := hap
    exact Or.inr ⟨x, hx, y, hy, hne, hsame⟩

end Block

namespace Sample

/-- The second block with another signature. -/
def resigned : Block := { second with header := { second.header with signature := [1] } }

theorem check_resigned : second.check network now trusting {} = .ok () ∧
    resigned.check network now trusting { skipWork := true } = .ok () := by
  decide +kernel

end Sample

/-- A block with two transactions that is signed twice. -/
theorem Block.eq_or_collision_resigned : Sample.second ≠ Sample.resigned ∧
    Sample.second.check Sample.network Sample.now Sample.trusting {} = .ok () ∧
    Sample.resigned.check Sample.network Sample.now Sample.trusting { skipWork := true } =
      .ok () ∧
    Sample.second.hash = Sample.resigned.hash ∧
    ({ Sample.second with header :=
        { Sample.second.header with signature := Sample.resigned.header.signature } } =
      Sample.resigned ∨
    ∃ x ∈ Sample.second.messages ++ Sample.resigned.messages,
      ∃ y ∈ Sample.second.messages ++ Sample.resigned.messages,
        x ≠ y ∧ Digest.ofMessage x = Digest.ofMessage y) := by
  obtain ⟨hcheck, hcheck'⟩ := Sample.check_resigned
  refine ⟨fun heq => ?_, hcheck, hcheck', rfl, eq_or_collision hcheck hcheck' rfl⟩
  have hsignature : ([] : Bytes) = [1] := congrArg (·.header.signature) heq
  cases hsignature

end PermissionedLedger
