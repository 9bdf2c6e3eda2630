import Mathlib
import PermissionedLedger.Network.Genesis
import PermissionedLedger.Proofs.Coins.Rights

/-!
# The lines of threads

Genesis creates one output for each thread. A transaction of a thread spends the one that is
there, with its first input, and creates the next with its first output; nothing else spends
or creates one. So there is always one output for each thread, the last of its line
(`Threads`), and a transaction takes one line a step further (`Threads.step`).

Signatures do not matter here. That a thread is continued is a matter of the first output of
a transaction, and `Transaction.checkRight` compares it with what the inputs spend.
-/

namespace PermissionedLedger

open CoinView

variable {v v' : CoinView} {tx : Transaction} {height : Nat} {params : Params}
  {verify : Verifier} {t : Thread} {before : List (Nat × Transaction)} {journal : Journal}

/-! ## Outputs by their positions -/

namespace Transaction

theorem mem_created_iff {o : OutPoint} {output : TxOutput} :
    (o, output) ∈ tx.created ↔ ∃ i, tx.outputs[i]? = some output ∧ tx.outPoint i = o := by
  rw [created, outPointsOf, List.mem_map]
  constructor
  · rintro ⟨⟨out, i⟩, hmem, heq⟩
    obtain ⟨rfl, rfl⟩ := Prod.mk.inj heq
    exact ⟨i, List.mem_zipIdx_iff_getElem?.1 hmem, rfl⟩
  · rintro ⟨i, hout, rfl⟩
    exact ⟨(output, i), List.mem_zipIdx_iff_getElem?.2 hout, rfl⟩

theorem outPoint_inj {i j : Nat} (hi : i < 2 ^ 32) (hj : j < 2 ^ 32)
    (h : tx.outPoint i = tx.outPoint j) : i = j := by
  have hindex := congrArg (fun o : OutPoint => o.index.toNat) h
  simpa only [outPoint, UInt32.toNat_ofNat', Nat.mod_eq_of_lt hi, Nat.mod_eq_of_lt hj] using hindex

/-- An output that is added is found under its number. -/
theorem lookup?_addOutputs_outPoint {i : Nat} {output : TxOutput} (v : CoinView) (height : Nat)
    (hshort : tx.outputs.length < 2 ^ 32) (hout : tx.outputs[i]? = some output)
    (hspendable : output.lock.isSpendable = true) :
    (v.addOutputs tx height).lookup? (tx.outPoint i) = some ⟨output, height, tx.isCoinbase⟩ := by
  have hmem : (tx.outPoint i, output) ∈ tx.spendables :=
    List.mem_filter.2 ⟨mem_created_iff.2 ⟨i, hout, rfl⟩, hspendable⟩
  obtain ⟨output', hmem', hlook⟩ :=
    lookup?_addOutputs_of_mem v height (List.mem_map_of_mem (f := Prod.fst) hmem)
  obtain ⟨j, hout', heq⟩ := mem_created_iff.1 (mem_created_of_mem_spendables hmem')
  have hlt := (List.getElem?_eq_some_iff.1 hout).1
  have hlt' := (List.getElem?_eq_some_iff.1 hout').1
  obtain rfl := outPoint_inj (by omega) (by omega) heq
  obtain rfl := Option.some.inj (hout.symm.trans hout')
  exact hlook

end Transaction

/-- What is there after a transaction was added by it, or was there before and is unspent. -/
theorem CoinView.lookup?_of_connectTransaction {o : OutPoint} {coin : Coin}
    (hc : v.connectTransaction tx height = (.ok (), v', journal))
    (hcoin : v'.lookup? o = some coin) :
    (∃ i, tx.outputs[i]? = some coin.output ∧ tx.outPoint i = o ∧
      coin.output.lock.isSpendable = true) ∨ v.lookup? o = some coin ∧ o ∉ tx.spends := by
  obtain ⟨u, hu, rfl⟩ := connectTransaction_eq_ok.1 hc
  by_cases ho : o ∈ tx.spendables.map Prod.fst
  · obtain ⟨output, hmem, hadded⟩ := lookup?_addOutputs_of_mem u height ho
    obtain rfl := Option.some.inj (hcoin.symm.trans hadded)
    obtain ⟨hcreated, hspendable⟩ := List.mem_filter.1 hmem
    obtain ⟨i, hout, heq⟩ := Transaction.mem_created_iff.1 hcreated
    exact Or.inl ⟨i, hout, heq, hspendable⟩
  · rw [lookup?_addOutputs_of_notMem ho, lookup?_of_spendAll hu] at hcoin
    split at hcoin
    · cases hcoin
    · next hkept => exact Or.inr ⟨hcoin, hkept⟩

/-- What is unspent and not replaced stays there. -/
theorem CoinView.lookup?_of_kept {o : OutPoint}
    (hc : v.connectTransaction tx height = (.ok (), v', journal))
    (hfresh : ∀ s ∈ tx.spendables, v.lookup? s.1 = none) {coin : Coin}
    (hcoin : v.lookup? o = some coin) (hkept : o ∉ tx.spends) : v'.lookup? o = some coin := by
  obtain ⟨u, hu, rfl⟩ := connectTransaction_eq_ok.1 hc
  have hother : o ∉ tx.spendables.map Prod.fst := by
    intro hin
    obtain ⟨s, hs, rfl⟩ := List.mem_map.1 hin
    cases (hfresh s hs).symm.trans hcoin
  rw [lookup?_addOutputs_of_notMem hother, lookup?_of_spendAll hu, if_neg hkept, hcoin]

/-! ## Inputs of a thread -/

namespace Transaction

variable {fee : Amount}

/-- Only the first input of a transaction that continues a thread spends an output of it. -/
theorem of_spends_thread (hfee : tx.fee height params v verify = .ok fee) {k : Nat}
    {input : TxInput} {coin : Coin} (hinput : tx.inputs[k]? = some input)
    (hcoin : v.lookup? input.previous = some coin) (hlock : coin.output.lock = .thread t) :
    k = 0 ∧ tx.thread? = some t := by
  obtain ⟨total, htotal, -⟩ := bind_eq_ok.1 hfee
  obtain ⟨coin', hcoin', -, hright⟩ := checked_of_provided htotal hinput
  obtain rfl := Option.some.inj (hcoin.symm.trans hcoin')
  rw [checkRight, Lock.thread?_eq_some.2 hlock, Nat.zero_add] at hright
  exact require_eq_ok.1 hright

/-- The first input of a transaction that continues a thread spends an output of it. -/
theorem exists_thread_input (hfee : tx.fee height params v verify = .ok fee)
    (hinputs : tx.inputs ≠ []) (ht : tx.thread? = some t) :
    ∃ input coin, tx.inputs.head? = some input ∧ v.lookup? input.previous = some coin ∧
      coin.output.lock = .thread t := by
  obtain ⟨input, rest, hin⟩ := List.exists_cons_of_ne_nil hinputs
  obtain ⟨total, htotal, -⟩ := bind_eq_ok.1 hfee
  have hinput : tx.inputs[0]? = some input := by rw [hin]; rfl
  obtain ⟨coin, hcoin, -, hright⟩ := checked_of_provided htotal hinput
  refine ⟨input, coin, by rw [hin]; rfl, hcoin, ?_⟩
  rw [checkRight, ht] at hright
  split at hright
  · next spent hspent =>
    obtain ⟨-, hsame⟩ := require_eq_ok.1 hright
    rw [Option.some.inj hsame]
    exact Lock.thread?_eq_some.1 hspent
  · -- something else can be spent by a later input only
    obtain ⟨_, hlater, -⟩ := bind_eq_ok.1 hright
    simp at hlater

end Transaction

/-! ## One output for each thread -/

/-- The output of a thread after a history, the latest first: that of the last transaction which
continued it, or else of genesis. -/
def threadEnd (t : Thread) : List (Nat × Transaction) → OutPoint
  | [] => Params.genesisCoinbase.outPoint t.tag.toNat
  | e :: before => if e.2.continued? = some t then e.2.outPoint 0 else threadEnd t before

/-- The first input of a transaction that continues a thread spends the output of the thread. -/
def Continues (e : Nat × Transaction) (before : List (Nat × Transaction)) : Prop :=
  ∀ t, e.2.continued? = some t →
    e.2.outputs.head? = some ⟨0, .thread t⟩ ∧
      ∃ input, e.2.inputs.head? = some input ∧ input.previous = threadEnd t before

/-- After a history there is one output for each thread, and nothing that cannot be spent. -/
structure Threads (before : List (Nat × Transaction)) (v : CoinView) : Prop where
  /-- the output of a thread is there and has no value -/
  there : ∀ t, ∃ coin, v.lookup? (threadEnd t before) = some coin ∧
    coin.output = ⟨0, .thread t⟩
  /-- there is no other -/
  only : ∀ {o coin t}, v.lookup? o = some coin → coin.output.lock = .thread t →
    o = threadEnd t before
  /-- what is there can be spent -/
  spendable : ∀ {o coin}, v.lookup? o = some coin → coin.output.lock.isSpendable = true

theorem Transaction.Governed.head_eq (h : tx.Governed) (ht : tx.continued? = some t) :
    tx.outputs.head? = some ⟨0, .thread t⟩ := by
  obtain ⟨-, ⟨value, lock⟩, hhead, hlock⟩ := continued?_eq_some.1 ht
  obtain ⟨-, hvalue, -⟩ := h.first ((List.head?_eq_getElem? ..).symm.trans hhead) hlock
  obtain rfl : value = 0 := hvalue
  obtain rfl : lock = .thread t := hlock
  exact hhead

namespace Threads

variable (hpays : tx.isCoinbase = false → ∃ fee, tx.fee height params v verify = .ok fee)

include hpays

/-- A transaction that continues a thread spends the end of its line with the first input. -/
theorem head_input (h : Threads before v) (hwf : tx.WellFormed) (ht : tx.continued? = some t) :
    ∃ input, tx.inputs.head? = some input ∧ input.previous = threadEnd t before := by
  obtain ⟨hordinary, -⟩ := Transaction.continued?_eq_some.1 ht
  obtain ⟨fee, hfee⟩ := hpays hordinary
  rw [Transaction.continued?, hordinary, if_neg Bool.false_ne_true] at ht
  obtain ⟨input, coin, hinput, hcoin, hlock⟩ :=
    Transaction.exists_thread_input hfee hwf.inputs_ne_nil ht
  exact ⟨input, hinput, h.only hcoin hlock⟩

/-- No other transaction spends it. -/
theorem continued_of_spends (h : Threads before v) (hin : threadEnd t before ∈ tx.spends) :
    tx.continued? = some t := by
  rw [Transaction.spends] at hin
  split at hin
  · cases hin
  · next hordinary =>
    rw [Bool.not_eq_true] at hordinary
    obtain ⟨fee, hfee⟩ := hpays hordinary
    obtain ⟨input, hinput, heq⟩ := List.mem_map.1 hin
    obtain ⟨k, hk⟩ := List.mem_iff_getElem?.1 hinput
    obtain ⟨coin, hcoin, houtput⟩ := h.there t
    rw [← heq] at hcoin
    rw [Transaction.continued?, hordinary, if_neg Bool.false_ne_true]
    exact (Transaction.of_spends_thread hfee hk hcoin (by rw [houtput])).2

/-- A transaction that is in order and replaces nothing takes the line of its thread a step
further, and no other. -/
theorem step (h : Threads before v) (hwf : tx.WellFormed) (hgoverned : tx.Governed)
    (hfresh : ∀ s ∈ tx.spendables, v.lookup? s.1 = none)
    (hc : v.connectTransaction tx height = (.ok (), v', journal)) :
    Continues (height, tx) before ∧ Threads ((height, tx) :: before) v' := by
  refine ⟨fun t ht => ⟨hgoverned.head_eq ht, h.head_input hpays hwf ht⟩, ?_, ?_, ?_⟩
  case refine_1 =>
    intro t
    rw [threadEnd]
    split
    · next ht =>
      have hhead := hgoverned.head_eq ht
      rw [List.head?_eq_getElem?] at hhead
      obtain ⟨u, -, rfl⟩ := connectTransaction_eq_ok.1 hc
      exact ⟨_, Transaction.lookup?_addOutputs_outPoint u height hgoverned.short hhead rfl, rfl⟩
    · next ht =>
      obtain ⟨coin, hcoin, houtput⟩ := h.there t
      exact ⟨coin, lookup?_of_kept hc hfresh hcoin fun hin => ht (h.continued_of_spends hpays hin),
        houtput⟩
  case refine_2 =>
    intro o coin t hcoin hlock
    rw [threadEnd]
    rcases lookup?_of_connectTransaction hc hcoin with ⟨i, hout, rfl, -⟩ | ⟨hold, hkept⟩
    · rw [if_pos (hgoverned.continued?_eq (List.mem_of_getElem? hout) hlock),
        (hgoverned.first hout hlock).1]
    · have hend := h.only hold hlock
      rw [if_neg ?_]
      · exact hend
      · -- a transaction that continues the thread would have spent it
        intro ht
        obtain ⟨input, hinput, heq⟩ := h.head_input hpays hwf ht
        refine hkept ?_
        rw [Transaction.spends, (Transaction.continued?_eq_some.1 ht).1, if_neg Bool.false_ne_true,
          hend, ← heq]
        exact List.mem_map_of_mem (List.mem_of_mem_head? hinput)
  case refine_3 =>
    intro o coin hcoin
    rcases lookup?_of_connectTransaction hc hcoin with ⟨-, -, -, hspendable⟩ | ⟨hold, -⟩
    · exact hspendable
    · exact h.spendable hold

omit hpays

/-- So do the transactions of a block. -/
theorem connectChecked {txs : List Transaction} {fees total : Amount} (h : Threads before v)
    (hline : Throughout Continues before) (hwf : ∀ tx ∈ txs, tx.WellFormed)
    (hgoverned : ∀ tx ∈ txs, tx.Governed) (hfresh : Fresh height v txs)
    (hc : Block.connectChecked height params verify fees v txs = .ok (total, v', journal)) :
    Throughout Continues ((txs.map fun tx => (height, tx)).reverse ++ before) ∧
      Threads ((txs.map fun tx => (height, tx)).reverse ++ before) v' := by
  induction txs generalizing v before fees journal with
  | nil =>
    rw [Block.connectChecked] at hc
    obtain ⟨rfl, -⟩ := Prod.mk.inj (Prod.mk.inj (Except.ok.inj hc)).2
    exact ⟨hline, h⟩
  | cons tx txs ih =>
    obtain ⟨fee, next, u, first, rest, hfee, -, hu, hrest, -⟩ :=
      Block.connectChecked_cons_eq_ok.1 hc
    obtain ⟨hnew, hlater⟩ := hfresh
    rw [hu] at hlater
    have hpays : tx.isCoinbase = false → ∃ fee, tx.fee height params v verify = .ok fee := by
      intro hordinary
      rw [Block.feeOf, hordinary, if_neg Bool.false_ne_true, mapError_eq_ok] at hfee
      exact ⟨fee, hfee⟩
    obtain ⟨hcontinues, hthreads⟩ := h.step hpays (hwf tx (List.mem_cons_self ..))
      (hgoverned tx (List.mem_cons_self ..)) hnew hu
    rw [List.map_cons, List.reverse_cons, List.append_assoc, List.singleton_append]
    exact ih hthreads (Throughout.cons_iff.2 ⟨hcontinues, hline⟩)
      (fun tx htx => hwf tx (List.mem_cons_of_mem _ htx))
      (fun tx htx => hgoverned tx (List.mem_cons_of_mem _ htx)) hlater hrest

/-- Genesis begins the lines. -/
theorem genesis : Threads [(0, Params.genesisCoinbase)]
    ((⟨∅, ∅⟩ : CoinView).addOutputs Params.genesisCoinbase 0) := by
  have hend : ∀ t, threadEnd t [(0, Params.genesisCoinbase)] =
      Params.genesisCoinbase.outPoint t.tag.toNat := fun t => rfl
  have hout : ∀ t : Thread, Params.genesisCoinbase.outputs[t.tag.toNat]? =
      some ⟨0, .thread t⟩ := by
    intro t
    cases t <;> rfl
  -- nothing else is there
  have hcases : ∀ {o coin}, ((⟨∅, ∅⟩ : CoinView).addOutputs Params.genesisCoinbase 0).lookup? o =
      some coin → ∃ t : Thread, coin.output = ⟨0, .thread t⟩ ∧
        o = Params.genesisCoinbase.outPoint t.tag.toNat := by
    intro o coin hcoin
    by_cases ho : o ∈ Params.genesisCoinbase.spendables.map Prod.fst
    · obtain ⟨output, hmem, hadded⟩ := lookup?_addOutputs_of_mem ⟨∅, ∅⟩ 0 ho
      obtain rfl := Option.some.inj (hcoin.symm.trans hadded)
      obtain ⟨i, hget, rfl⟩ := Transaction.mem_created_iff.1
        (Transaction.mem_created_of_mem_spendables hmem)
      rcases i with _ | _ | _ | i
      · exact ⟨.root, (Option.some.inj hget).symm, rfl⟩
      · exact ⟨.provision, (Option.some.inj hget).symm, rfl⟩
      · exact ⟨.issue, (Option.some.inj hget).symm, rfl⟩
      · cases hget
    · rw [lookup?_addOutputs_of_notMem ho] at hcoin
      simp [lookup?, fetch] at hcoin
  refine ⟨fun t => ?_, ?_, ?_⟩
  · rw [hend]
    exact ⟨_, Transaction.lookup?_addOutputs_outPoint _ 0 (by decide) (hout t) rfl, rfl⟩
  · intro o coin t hcoin hlock
    obtain ⟨t', houtput, rfl⟩ := hcases hcoin
    rw [houtput] at hlock
    rw [hend, Lock.thread.inj hlock]
  · intro o coin hcoin
    obtain ⟨t, houtput, -⟩ := hcases hcoin
    rw [houtput]
    rfl

end Threads

/-! ## The line of a thread -/

/-- The transactions that continue a thread, in order, in a history with the latest first. -/
def lineOf (t : Thread) (before : List (Nat × Transaction)) : List Transaction :=
  ((before.map (·.2)).filter fun tx => tx.continued? = some t).reverse

/-- The outputs along the line of a thread: that of genesis, and those of its transactions. -/
def outputsOf (t : Thread) (before : List (Nat × Transaction)) : List OutPoint :=
  Params.genesisCoinbase.outPoint t.tag.toNat :: (lineOf t before).map (·.outPoint 0)

theorem lineOf_cons (t : Thread) (e : Nat × Transaction) (before : List (Nat × Transaction)) :
    lineOf t (e :: before) =
      if e.2.continued? = some t then lineOf t before ++ [e.2] else lineOf t before := by
  rw [lineOf, List.map_cons, List.filter_cons]
  by_cases ht : e.2.continued? = some t
  · rw [if_pos (by simpa using ht), if_pos ht, List.reverse_cons]
    rfl
  · rw [if_neg (by simpa using ht), if_neg ht]
    rfl

theorem outputsOf_cons (t : Thread) (e : Nat × Transaction) (before : List (Nat × Transaction)) :
    outputsOf t (e :: before) =
      if e.2.continued? = some t then outputsOf t before ++ [e.2.outPoint 0]
      else outputsOf t before := by
  rw [outputsOf, lineOf_cons]
  split
  · rw [List.map_append, ← List.cons_append]
    rfl
  · rfl

theorem length_outputsOf (t : Thread) (before : List (Nat × Transaction)) :
    (outputsOf t before).length = (lineOf t before).length + 1 := by
  rw [outputsOf, List.length_cons, List.length_map]

/-- The line ends with the output that is there. -/
theorem getLast?_outputsOf (t : Thread) (before : List (Nat × Transaction)) :
    (outputsOf t before).getLast? = some (threadEnd t before) := by
  induction before with
  | nil => rfl
  | cons e before ih =>
    rw [outputsOf_cons, threadEnd]
    split
    · exact List.getLast?_concat ..
    · exact ih

/-- Every transaction on the line spends the output of the one before. -/
theorem of_lineOf (h : Throughout Continues before) {i : Nat} (htx : (lineOf t before)[i]? = some tx) :
    tx.outputs.head? = some ⟨0, .thread t⟩ ∧
      ∃ input, tx.inputs.head? = some input ∧ (outputsOf t before)[i]? = some input.previous := by
  induction before with
  | nil => cases htx
  | cons e before ih =>
    obtain ⟨he, hbefore⟩ := Throughout.cons_iff.1 h
    rw [lineOf_cons] at htx
    rw [outputsOf_cons]
    split
    · next ht =>
      rw [if_pos ht] at htx
      have hlt := (List.getElem?_eq_some_iff.1 htx).1
      rw [List.length_append, List.length_singleton] at hlt
      rw [List.getElem?_append_left (by rw [length_outputsOf]; exact hlt)]
      rcases Nat.lt_or_ge i (lineOf t before).length with hold | hlast
      · rw [List.getElem?_append_left hold] at htx
        exact ih hbefore htx
      · -- the newest transaction spends the end of the line
        obtain rfl : i = (lineOf t before).length := by omega
        obtain rfl : e.2 = tx := by simpa using htx
        obtain ⟨hhead, input, hinput, hprevious⟩ := he t ht
        refine ⟨hhead, input, hinput, ?_⟩
        rw [hprevious, ← getLast?_outputsOf, List.getLast?_eq_getElem?, length_outputsOf,
          Nat.add_sub_cancel]
    · next ht =>
      rw [if_neg ht] at htx
      exact ih hbefore htx

end PermissionedLedger
