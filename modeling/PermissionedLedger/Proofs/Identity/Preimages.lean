import Mathlib
import PermissionedLedger.Wire.Ledger

/-!
# What is hashed can be read back

A transaction is hashed as one byte string, in which nothing marks where a field ends. Still
two transactions that hash the same bytes are the same (`Transaction.hashed_injective`), and
two headers differ in their signatures at most (`Header.eq_of_hashed_eq`). Every form of a
field says itself how far it reaches (`Delimits`).

Lengths are hashed modulo `2 ^ 32`. They can be told apart as long as the encoding of the
transaction is not longer than that (`Codec.Short`).
-/

namespace PermissionedLedger

open Time (Instant)

variable {α : Type} {P : α → Prop} {form : α → Bytes}

/-! ## Forms that delimit themselves -/

/-- A value can be told from the front of a byte string, if `P` holds of it. -/
def Delimits (P : α → Prop) (form : α → Bytes) : Prop :=
  ∀ ⦃a b : α⦄ ⦃r s : Bytes⦄, P a → P b → form a ++ r = form b ++ s → a = b ∧ r = s

namespace Delimits

theorem injective (h : Delimits P form) {a b : α} (ha : P a) (hb : P b) (heq : form a = form b) :
    a = b :=
  (@h a b [] [] ha hb (congrArg (· ++ []) heq)).1

/-- Forms of one length delimit themselves. -/
theorem of_length (n : Nat) (hlength : ∀ a, (form a).length = n)
    (hinj : ∀ a b, P a → P b → form a = form b → a = b) : Delimits P form := by
  intro a b r s ha hb heq
  obtain ⟨hform, hrest⟩ := List.append_inj heq ((hlength a).trans (hlength b).symm)
  exact ⟨hinj a b ha hb hform, hrest⟩

/-- As many forms one after another as are known to come. -/
theorem flatMap (h : Delimits P form) {as bs : List α} {r s : Bytes}
    (hlength : as.length = bs.length) (ha : ∀ a ∈ as, P a) (hb : ∀ b ∈ bs, P b)
    (heq : as.flatMap form ++ r = bs.flatMap form ++ s) : as = bs ∧ r = s := by
  induction as generalizing bs with
  | nil =>
    obtain rfl := List.length_eq_zero_iff.1 hlength.symm
    exact ⟨rfl, heq⟩
  | cons a as ih =>
    obtain ⟨b, bs, rfl⟩ := List.exists_cons_of_length_eq_add_one hlength.symm
    obtain ⟨hfirst, hrest⟩ := List.forall_mem_cons.1 ha
    obtain ⟨hfirst', hrest'⟩ := List.forall_mem_cons.1 hb
    rw [List.flatMap_cons, List.flatMap_cons, List.append_assoc, List.append_assoc] at heq
    obtain ⟨rfl, htail⟩ := h hfirst hfirst' heq
    obtain ⟨rfl, hrs⟩ := ih (Nat.succ.inj hlength) hrest hrest' htail
    exact ⟨rfl, hrs⟩

end Delimits

/-! ## Numbers and lists -/

theorem Bytes.ofNatLE_inj {width m n : Nat} (hm : m < 256 ^ width) (hn : n < 256 ^ width)
    (h : ofNatLE width m = ofNatLE width n) : m = n := by
  rw [← toNatLE_ofNatLE hm, h, toNatLE_ofNatLE hn]

theorem delimits_ofNatLE (width : Nat) : Delimits (· < 256 ^ width) (Bytes.ofNatLE width) :=
  .of_length width (Bytes.length_ofNatLE width) fun _ _ => Bytes.ofNatLE_inj

theorem delimits_hashedLength : Delimits (· < 2 ^ 32) hashedLength := delimits_ofNatLE 4

theorem delimits_hashedWord : Delimits (fun _ => True) hashedWord :=
  .of_length 4 (fun _ => Bytes.length_ofNatLE ..) fun a b _ _ h =>
    UInt32.toNat_inj.1 (Bytes.ofNatLE_inj a.toNat_lt b.toNat_lt h)

theorem delimits_hashedAmount : Delimits (fun _ => True) hashedAmount :=
  .of_length 8 (fun _ => Bytes.length_ofNatLE ..) fun a b _ _ h =>
    Int64.toBitVec_inj.1 (BitVec.eq_of_toNat_eq
      (Bytes.ofNatLE_inj a.toBitVec.isLt b.toBitVec.isLt h))

theorem delimits_digest : Delimits (fun _ => True) Digest.toList :=
  .of_length 32 Digest.length_toList fun _ _ _ _ => Digest.toList_inj

theorem delimits_publicKey : Delimits (fun _ => True) PublicKey.toList :=
  .of_length 32 PublicKey.length_toList fun _ _ _ _ => PublicKey.toList_inj

/-- A list after its length. -/
theorem Delimits.list (h : Delimits P form) :
    Delimits (fun as : List α => as.length < 2 ^ 32 ∧ ∀ a ∈ as, P a)
      fun as => hashedLength as.length ++ as.flatMap form := by
  intro as bs r s ha hb heq
  rw [List.append_assoc, List.append_assoc] at heq
  obtain ⟨hlength, heq⟩ := delimits_hashedLength ha.1 hb.1 heq
  exact h.flatMap hlength ha.2 hb.2 heq

/-- Bytes after their number. -/
theorem delimits_bytes : Delimits (fun bs : Bytes => bs.length < 2 ^ 32)
    fun bs => hashedLength bs.length ++ bs := by
  intro as bs r s ha hb heq
  rw [List.append_assoc, List.append_assoc] at heq
  obtain ⟨hlength, heq⟩ := delimits_hashedLength ha hb heq
  exact List.append_inj heq hlength

/-! ## Sizes of encodings -/

namespace Codec

/-- The encoding of a value is shorter than `2 ^ 32` bytes. -/
def Short (c : Codec α) (a : α) : Prop := c.size a < 2 ^ 32

variable {c : Codec α} {as : List α} {a : α}

theorem size_le_of_mem (ha : a ∈ as) : c.size a ≤ (list c).size as := by
  rw [list]
  induction as with
  | nil => cases ha
  | cons b as ih =>
    simp only [List.map_cons, List.sum_cons] at ih ⊢
    rcases List.mem_cons.1 ha with rfl | ha
    · omega
    · have := ih ha
      omega

/-- A list takes as many bytes as its elements take at least. -/
theorem mul_length_le_size {least : Nat} (hleast : ∀ a, least ≤ c.size a) (as : List α) :
    least * as.length ≤ (list c).size as := by
  rw [list]
  induction as with
  | nil => exact Nat.zero_le _
  | cons b as ih =>
    simp only [List.map_cons, List.sum_cons, List.length_cons, Nat.mul_succ] at ih ⊢
    have := hleast b
    omega

theorem length_le_size (hpos : ∀ a, 0 < c.size a) (as : List α) :
    as.length ≤ (list c).size as :=
  (Nat.one_mul _).symm.trans_le (mul_length_le_size hpos as)

/-- A list with a short encoding is short, and so are the encodings of its elements. -/
theorem Short.of_list (h : (list c).Short as) (hpos : ∀ a, 0 < c.size a) :
    as.length < 2 ^ 32 ∧ ∀ a ∈ as, c.Short a :=
  ⟨Nat.lt_of_le_of_lt (length_le_size hpos as) h,
    fun _ ha => Nat.lt_of_le_of_lt (size_le_of_mem ha) h⟩

end Codec

/-! ## Transactions -/

theorem Thread.tag_injective : Function.Injective tag := by
  intro a b h
  cases a <;> cases b <;> first | rfl | exact absurd h (by decide)

theorem Role.tag_injective : Function.Injective tag := by
  intro a b h
  cases a <;> cases b <;> first | rfl | exact absurd h (by decide)

/-- A lock says itself how far it reaches. -/
theorem delimits_lock : Delimits Wire.lock.Short Lock.hashed := by
  intro a b r s ha hb h
  cases a <;> cases b
  case payToKey.payToKey k k' =>
    obtain ⟨rfl, hrs⟩ := delimits_publicKey trivial trivial (List.cons.inj h).2
    exact ⟨rfl, hrs⟩
  case multiSig.multiSig m ks m' ks' =>
    have hlength : ∀ {m : UInt8} {ks : List PublicKey}, Wire.lock.Short (.multiSig m ks) →
        ks.length < 2 ^ 32 ∧ ∀ k ∈ ks, True := by
      intro m ks hshort
      have hsize : Wire.lock.size (.multiSig m ks) =
        4 + (1 + (Codec.list Wire.publicKey).size ks) := rfl
      have hkeys := Codec.length_le_size (c := Wire.publicKey) (fun _ => Nat.succ_pos 31) ks
      rw [Codec.Short] at hshort
      exact ⟨by omega, fun _ _ => trivial⟩
    obtain ⟨-, hrequired⟩ := List.cons.inj h
    obtain ⟨rfl, hkeys⟩ := List.cons.inj hrequired
    obtain ⟨rfl, hrs⟩ := delimits_publicKey.list (hlength ha) (hlength hb) hkeys
    exact ⟨rfl, hrs⟩
  case thread.thread t t' =>
    obtain ⟨-, hthread⟩ := List.cons.inj h
    obtain ⟨htag, hrs⟩ := List.cons.inj hthread
    exact ⟨congrArg _ (Thread.tag_injective htag), hrs⟩
  case keyOp.keyOp op op' =>
    obtain ⟨-, hop⟩ := List.cons.inj h
    obtain ⟨htag, hchange⟩ := List.cons.inj hop
    obtain ⟨hroleTag, hkeyBytes⟩ := List.cons.inj hchange
    obtain ⟨hkey, hrs⟩ := delimits_publicKey trivial trivial hkeyBytes
    have hrole := Role.tag_injective hroleTag
    refine ⟨congrArg _ ?_, hrs⟩
    rcases op with ⟨role, key⟩ | ⟨role, key⟩ <;> rcases op' with ⟨role', key'⟩ | ⟨role', key'⟩
    · exact congrArg₂ _ hrole hkey
    · exact absurd (show (0 : UInt8) = 1 from htag) (by decide)
    · exact absurd (show (1 : UInt8) = 0 from htag) (by decide)
    · exact congrArg₂ _ hrole hkey
  case data.data bs bs' =>
    have hlength : ∀ {bs : Bytes}, Wire.lock.Short (.data bs) → bs.length < 2 ^ 32 := by
      intro bs hshort
      have hsize : Wire.lock.size (.data bs) = 4 + (8 + bs.length) := rfl
      rw [Codec.Short] at hshort
      omega
    obtain ⟨rfl, hrs⟩ := delimits_bytes (hlength ha) (hlength hb) (List.cons.inj h).2
    exact ⟨rfl, hrs⟩
  all_goals exact absurd (List.cons.inj h).1 (by decide)

theorem delimits_keySignature : Delimits Wire.keySignature.Short KeySignature.hashed := by
  intro a b r s ha hb h
  have hlength : ∀ {k : KeySignature}, Wire.keySignature.Short k →
      k.signature.length < 2 ^ 32 := by
    intro k hshort
    have hsize : Wire.keySignature.size k = 32 + (8 + k.signature.length) := rfl
    rw [Codec.Short] at hshort
    omega
  rw [KeySignature.hashed, KeySignature.hashed, List.append_assoc, List.append_assoc,
    List.append_assoc, List.append_assoc] at h
  obtain ⟨hkey, hrest⟩ := delimits_publicKey trivial trivial h
  rw [← List.append_assoc, ← List.append_assoc] at hrest
  obtain ⟨hsignature, hrs⟩ := delimits_bytes (hlength ha) (hlength hb) hrest
  exact ⟨by cases a; cases b; simp_all, hrs⟩

theorem delimits_unlock : Delimits Wire.unlock.Short Unlock.hashed := by
  intro a b r s ha hb h
  cases a <;> cases b
  case coinbase.coinbase bs bs' =>
    have hlength : ∀ {bs : Bytes}, Wire.unlock.Short (.coinbase bs) → bs.length < 2 ^ 32 := by
      intro bs hshort
      have hsize : Wire.unlock.size (.coinbase bs) = 4 + (8 + bs.length) := rfl
      rw [Codec.Short] at hshort
      omega
    obtain ⟨rfl, hrs⟩ := delimits_bytes (hlength ha) (hlength hb) (List.cons.inj h).2
    exact ⟨rfl, hrs⟩
  case signatures.signatures ss ss' =>
    have hshort : ∀ {ss : List KeySignature}, Wire.unlock.Short (.signatures ss) →
        (Codec.list Wire.keySignature).Short ss := by
      intro ss hshort
      have hsize : Wire.unlock.size (.signatures ss) =
        4 + (Codec.list Wire.keySignature).size ss := rfl
      rw [Codec.Short] at hshort ⊢
      omega
    have hpos : ∀ k, 0 < Wire.keySignature.size k :=
      fun k => Nat.add_pos_left (Nat.succ_pos 31) (8 + k.signature.length)
    obtain ⟨rfl, hrs⟩ := delimits_keySignature.list ((hshort ha).of_list hpos)
      ((hshort hb).of_list hpos) (List.cons.inj h).2
    exact ⟨rfl, hrs⟩
  all_goals exact absurd (List.cons.inj h).1 (by decide)

theorem delimits_output : Delimits Wire.txOutput.Short TxOutput.hashed := by
  intro a b r s ha hb h
  have hlock : ∀ {o : TxOutput}, Wire.txOutput.Short o → Wire.lock.Short o.lock := by
    intro o hshort
    have hsize : Wire.txOutput.size o = 8 + Wire.lock.size o.lock := rfl
    rw [Codec.Short] at hshort ⊢
    omega
  rw [TxOutput.hashed, TxOutput.hashed, List.append_assoc, List.append_assoc] at h
  obtain ⟨hvalue, hrest⟩ := delimits_hashedAmount trivial trivial h
  obtain ⟨hlocks, hrs⟩ := delimits_lock (hlock ha) (hlock hb) hrest
  exact ⟨by cases a; cases b; simp_all, hrs⟩

namespace TxInput

/-- An input apart from its unlock data. -/
def outline (i : TxInput) : OutPoint × UInt32 := (i.previous, i.sequence)

/-- What is hashed of that. -/
def outlineHashed (o : OutPoint × UInt32) : Bytes :=
  o.1.txHash.toList ++ hashedWord o.1.index ++ hashedWord o.2

theorem flatMap_hashed (is : List TxInput) :
    is.flatMap (·.hashed) = (is.map outline).flatMap outlineHashed := by
  rw [List.flatMap_map]
  rfl

theorem delimits_outlineHashed : Delimits (fun _ => True) outlineHashed := by
  rintro ⟨⟨hash, index⟩, sequence⟩ ⟨⟨hash', index'⟩, sequence'⟩ r s - - h
  simp only [outlineHashed, List.append_assoc] at h
  obtain ⟨rfl, hindex⟩ := delimits_digest trivial trivial h
  obtain ⟨rfl, hsequence⟩ := delimits_hashedWord trivial trivial hindex
  obtain ⟨rfl, hrs⟩ := delimits_hashedWord trivial trivial hsequence
  exact ⟨rfl, hrs⟩

/-- Inputs are the same if their unlock data are, and all the rest. -/
theorem eq_of_map_eq {is js : List TxInput} (houtline : is.map outline = js.map outline)
    (hunlock : is.map (·.unlock) = js.map (·.unlock)) : is = js := by
  induction is generalizing js with
  | nil => exact (List.map_eq_nil_iff.1 houtline.symm).symm
  | cons i is ih =>
    obtain ⟨j, js, rfl, -, -⟩ := List.map_eq_cons_iff.1 houtline.symm
    obtain ⟨hfirst, hrest⟩ := List.cons.inj houtline
    obtain ⟨hfirst', hrest'⟩ := List.cons.inj hunlock
    obtain ⟨hprevious, hsequence⟩ := Prod.mk.inj hfirst
    rw [ih hrest hrest']
    cases i
    cases j
    simp_all

end TxInput

namespace Transaction

variable {tx tx' : Transaction}

theorem size_eq (tx : Transaction) : tx.size = 4 + ((Codec.list Wire.txInput).size tx.inputs +
    ((Codec.list Wire.txOutput).size tx.outputs + 4)) := rfl

theorem inputs_short (h : tx.size < 2 ^ 32) :
    tx.inputs.length < 2 ^ 32 ∧ ∀ u ∈ tx.inputs.map (·.unlock), Wire.unlock.Short u := by
  rw [size_eq] at h
  have hlist : (Codec.list Wire.txInput).Short tx.inputs := by
    rw [Codec.Short]
    omega
  obtain ⟨hlength, hshort⟩ := hlist.of_list fun i => Nat.add_pos_left (Nat.succ_pos 35) _
  refine ⟨hlength, List.forall_mem_map.2 fun i hi => ?_⟩
  have hsize : Wire.txInput.size i = 36 + (Wire.unlock.size i.unlock + 4) := rfl
  have hinput := hshort i hi
  rw [Codec.Short] at hinput ⊢
  omega

theorem outputs_short (h : tx.size < 2 ^ 32) :
    tx.outputs.length < 2 ^ 32 ∧ ∀ o ∈ tx.outputs, Wire.txOutput.Short o := by
  rw [size_eq] at h
  exact Codec.Short.of_list (by rw [Codec.Short]; omega) fun o =>
    Nat.add_pos_left (Nat.succ_pos 7) _

/-- The part that both byte strings share says itself how far it reaches, and pins all but the
unlock data. -/
theorem eq_of_body_append_eq (h : tx.size < 2 ^ 32) (h' : tx'.size < 2 ^ 32) {r s : Bytes}
    (heq : tx.body ++ r = tx'.body ++ s) :
    (tx.version = tx'.version ∧ tx.lockTime = tx'.lockTime ∧ tx.outputs = tx'.outputs ∧
      tx.inputs.map TxInput.outline = tx'.inputs.map TxInput.outline) ∧ r = s := by
  obtain ⟨hinputs, -⟩ := inputs_short h
  obtain ⟨hinputs', -⟩ := inputs_short h'
  obtain ⟨houtputs, hlocks⟩ := outputs_short h
  obtain ⟨houtputs', hlocks'⟩ := outputs_short h'
  simp only [body, List.append_assoc, TxInput.flatMap_hashed] at heq
  -- field by field
  obtain ⟨hversion, heq₁⟩ := delimits_hashedWord trivial trivial heq
  obtain ⟨hlength, heq₂⟩ := delimits_hashedLength hinputs hinputs' heq₁
  obtain ⟨houtlines, heq₃⟩ := TxInput.delimits_outlineHashed.flatMap (by simpa using hlength)
    (fun _ _ => trivial) (fun _ _ => trivial) heq₂
  obtain ⟨hlength', heq₄⟩ := delimits_hashedLength houtputs houtputs' heq₃
  obtain ⟨houts, heq₅⟩ := delimits_output.flatMap hlength' hlocks hlocks' heq₄
  obtain ⟨hlockTime, hrest⟩ := delimits_hashedWord trivial trivial heq₅
  exact ⟨⟨hversion, hlockTime, houts, houtlines⟩, hrest⟩

/-- Transactions of less than `2 ^ 32` bytes that hash the same bytes are the same. -/
theorem hashed_injective (h : tx.size < 2 ^ 32) (h' : tx'.size < 2 ^ 32)
    (heq : tx.hashed = tx'.hashed) : tx = tx' := by
  obtain ⟨⟨hversion, hlockTime, houts, houtlines⟩, hrest⟩ := eq_of_body_append_eq h h' heq
  have hunlock : ∀ is : List TxInput, is.flatMap (·.unlock.hashed) =
      (is.map (·.unlock)).flatMap Unlock.hashed ++ [] := by
    intro is
    rw [List.flatMap_map, List.append_nil]
  have hlength : (tx.inputs.map (·.unlock)).length = (tx'.inputs.map (·.unlock)).length := by
    simpa using congrArg List.length houtlines
  rw [hunlock, hunlock] at hrest
  obtain ⟨hunlocksEq, -⟩ :=
    delimits_unlock.flatMap hlength (inputs_short h).2 (inputs_short h').2 hrest
  have hins := TxInput.eq_of_map_eq houtlines hunlocksEq
  cases tx
  cases tx'
  simp_all

/-- More bytes are hashed of a transaction than of two digests. -/
theorem lt_length_hashed (hin : tx.inputs ≠ []) (hout : tx.outputs ≠ []) :
    64 < tx.hashed.length := by
  obtain ⟨i, is, hi⟩ := List.exists_cons_of_ne_nil hin
  obtain ⟨o, os, ho⟩ := List.exists_cons_of_ne_nil hout
  have hlock : 2 ≤ o.lock.hashed.length := by
    rcases o.lock with k | ⟨m, ks⟩ | t | op | bs <;>
      simp only [Lock.hashed, List.length_cons, List.length_append, PublicKey.length_toList,
        hashedLength, Bytes.length_ofNatLE, List.length_nil] <;> omega
  have hunlock : 5 ≤ i.unlock.hashed.length := by
    rcases i.unlock with bs | ss <;>
      simp only [Unlock.hashed, List.length_cons, List.length_append, hashedLength,
        Bytes.length_ofNatLE] <;> omega
  have hword : ∀ w : UInt32, (hashedWord w).length = 4 := fun _ => Bytes.length_ofNatLE ..
  have hinput : i.hashed.length = 40 := by
    simp [TxInput.hashed, hword]
  have houtput : o.hashed.length = 8 + o.lock.hashed.length := by
    simp [TxOutput.hashed, hashedAmount]
  simp only [hashed, body, hi, ho, List.flatMap_cons, List.length_append, hword, hashedLength,
    Bytes.length_ofNatLE, hinput, houtput]
  omega

end Transaction

/-! ## Headers -/

/-- Seconds fit in a signed word, and nanoseconds in an unsigned one. -/
theorem Time.Instant.fits (i : Instant) :
    (-2 ^ 63 ≤ i.seconds ∧ i.seconds < 2 ^ 63) ∧ i.nanos < 2 ^ 32 := by
  have h := i.isInstant
  simp only [Time.isInstant, Bool.and_eq_true, decide_eq_true_eq] at h
  obtain ⟨⟨⟨hmin, hmax⟩, hnanos⟩, -⟩ := h
  rw [Time.minSeconds] at hmin
  rw [Time.maxSeconds] at hmax
  rw [Time.secondNanos] at hnanos
  omega

/-- A time as it is hashed. -/
theorem delimits_seconds : Delimits (fun n : Int => -2 ^ 63 ≤ n ∧ n < 2 ^ 63)
    fun n => Bytes.ofNatLE 8 (Int64.ofInt n).toBitVec.toNat := by
  refine .of_length 8 (fun _ => Bytes.length_ofNatLE ..) fun m n hm hn heq => ?_
  have hword : Int64.ofInt m = Int64.ofInt n := delimits_hashedAmount.injective trivial trivial heq
  rw [← Int64.toInt_ofInt_of_le hm.1 hm.2, hword, Int64.toInt_ofInt_of_le hn.1 hn.2]

theorem delimits_nonce : Delimits (fun _ : UInt64 => True) fun n => Bytes.ofNatLE 8 n.toNat :=
  .of_length 8 (fun _ => Bytes.length_ofNatLE ..) fun a b _ _ h =>
    UInt64.toNat_inj.1 (Bytes.ofNatLE_inj a.toNat_lt b.toNat_lt h)

/-- Headers that hash the same bytes differ in their signatures at most. -/
theorem Header.eq_of_hashed_eq {h h' : Header} (heq : h.hashed = h'.hashed) :
    { h with signature := h'.signature } = h' := by
  have hnanos : ∀ h : Header, h.time.nanos < 256 ^ 4 := fun h => h.time.fits.2
  simp only [hashed, List.append_assoc] at heq
  obtain ⟨hversion, heq₁⟩ := delimits_hashedWord trivial trivial heq
  obtain ⟨hprevious, heq₂⟩ := delimits_digest trivial trivial heq₁
  obtain ⟨hroot, heq₃⟩ := delimits_digest trivial trivial heq₂
  obtain ⟨hseconds, heq₄⟩ := delimits_seconds h.time.fits.1 h'.time.fits.1 heq₃
  obtain ⟨hnanosEq, heq₅⟩ := delimits_ofNatLE 4 (hnanos h) (hnanos h') heq₄
  obtain ⟨hbits, heq₆⟩ := delimits_hashedWord trivial trivial heq₅
  obtain ⟨hnonce, heq₇⟩ := delimits_nonce trivial trivial heq₆
  obtain ⟨hsize, heq₈⟩ := delimits_hashedWord trivial trivial heq₇
  have hvalidator := PublicKey.toList_inj heq₈
  obtain ⟨version, previous, root, ⟨seconds, nanos, hinstant⟩, bits, nonce, size, validator, _⟩ := h
  obtain ⟨version', previous', root', ⟨seconds', nanos', hinstant'⟩, _⟩ := h'
  simp_all

end PermissionedLedger
