import Mathlib
import PermissionedLedger.Proofs.Chain.Replay
import PermissionedLedger.Proofs.Coins.Rights

/-!
# Spending on the main chain

If no block was trusted, everything on the main chain of a reachable chain is spent by
right, and once.

A block is checked when it is connected, which can be long after it arrived and in a
view that has undone other blocks. Later, it may be undone and connected again without
another look. What was found out about it still holds, as the verdict depends on the
blocks below it only (`Verified`), and at the tip these are the main chain.
-/

namespace PermissionedLedger

open CoinView BlockTree

variable {σ : Type} [ChainStore σ] {params : Params} {verify : Verifier}

/-! ## Lines that were accepted -/

/-- Along a line that was accepted all inputs spend by right. -/
theorem byRight_entriesOf {line : List Block} (hformed : Throughout (fun b _ => b.WellFormed) line)
    (haccepted : Throughout (Block.Accepted params verify) line) :
    Throughout (SpendsByRight params verify) (entriesOf line) := by
  induction line with
  | nil => exact Throughout.nil
  | cons b older ih =>
    obtain ⟨hb, holder⟩ := Throughout.cons_iff.1 haccepted
    rcases hb with ⟨rfl, rfl⟩ | ⟨r, hr⟩
    · refine Throughout.cons_iff.2 ⟨fun hordinary => ?_, Throughout.nil⟩
      cases hordinary
    · have hformed' := (Throughout.cons_iff.1 hformed).2
      refine byRight_of_connect (ih hformed' holder) (fun c rest hs => ?_) hformed hr
      exact ((holder c rest hs).fits (hformed' c rest hs)).connects

/-! ## Spending in order -/

/-- In a history in ascending order, the transaction at `p` has an input `k` for the output `o` of
the transaction at `q`, the last before it that created an output of this name. -/
structure SpendsFrom (history : List (Nat × Transaction)) (q p k : Nat) (o : OutPoint) :
    Prop where
  /-- the input refers to the output -/
  spender : ∃ e input, history[p]? = some e ∧ e.2.isCoinbase = false ∧
    e.2.inputs[k]? = some input ∧ input.previous = o
  /-- the output was created -/
  creator : ∃ e, history[q]? = some e ∧ o ∈ e.2.spendables.map Prod.fst
  /-- this was before -/
  lt : q < p
  /-- no output of this name was created since -/
  last : ∀ r e, q < r → r < p → history[r]? = some e → o ∉ e.2.spendables.map Prod.fst

namespace SpendsFrom

variable {history : List (Nat × Transaction)} {q q' p p' k : Nat} {o : OutPoint}

/-- What an input spends is determined. -/
theorem creator_eq (h : SpendsFrom history q p k o) (h' : SpendsFrom history q' p k o) :
    q = q' := by
  obtain ⟨e, he, hcreated⟩ := h.creator
  obtain ⟨e', he', hcreated'⟩ := h'.creator
  rcases Nat.lt_trichotomy q q' with hlt | heq | hlt
  · exact absurd hcreated' (h.last q' e' hlt h'.lt he')
  · exact heq
  · exact absurd hcreated (h'.last q e hlt h.lt he)

end SpendsFrom

/-- An output that is unspent before a transaction is spent by it alone. -/
theorem spendsFrom_of_unspent {entries before : List (Nat × Transaction)}
    {e creator : Nat × Transaction} {output : TxOutput} {k : Nat} {input : TxInput}
    (hs : e :: before <:+ entries) (hordinary : e.2.isCoinbase = false)
    (hinput : e.2.inputs[k]? = some input)
    (hunspent : Unspent before input.previous output creator) :
    ∃ q, SpendsFrom entries.reverse q before.length k input.previous ∧
      entries.reverse[q]? = some creator ∧
      ∀ r e', q < r → r < before.length → entries.reverse[r]? = some e' →
        input.previous ∉ e'.2.spends := by
  obtain ⟨since, earlier, hbefore, hcreated, hsince⟩ := hunspent
  have hs' : creator :: earlier <:+ entries := by
    refine List.IsSuffix.trans ?_ hs
    rw [hbefore]
    exact (List.suffix_append ..).trans (List.suffix_cons ..)
  have hcreator := getElem?_reverse_line.2 ⟨earlier, hs', rfl⟩
  have hlen : before.length = since.length + (earlier.length + 1) := by
    rw [hbefore, List.length_append, List.length_cons]
  -- what lies between them came since
  have hbetween : ∀ r e', earlier.length < r → r < before.length →
      entries.reverse[r]? = some e' → e' ∈ since := by
    intro r e' hlow hhigh he'
    obtain ⟨rest, hrest, rfl⟩ := getElem?_reverse_line.1 he'
    have hbelow : e' :: rest <:+ since ++ creator :: earlier := by
      rw [← hbefore]
      refine List.suffix_of_suffix_length_le hrest ((List.suffix_cons ..).trans hs) ?_
      rw [List.length_cons]
      omega
    rcases List.suffix_or_suffix_of_suffix hbelow (List.suffix_append ..) with hin | ⟨l, hl⟩
    · have hle := hin.length_le
      rw [List.length_cons, List.length_cons] at hle
      omega
    · obtain ⟨m, hm⟩ := hbelow
      rw [← hl, ← List.append_assoc] at hm
      rw [← List.append_cancel_right hm]
      refine List.mem_append_right _ ?_
      rcases l with _ | ⟨a, l⟩
      · have hlen' := congrArg List.length hl
        rw [List.nil_append, List.length_cons, List.length_cons] at hlen'
        omega
      · obtain ⟨rfl, -⟩ := List.cons.inj hl
        exact List.mem_cons_self ..
  refine ⟨earlier.length, ⟨⟨e, input, getElem?_reverse_line.2 ⟨before, hs, rfl⟩, hordinary, hinput,
    rfl⟩, ⟨creator, hcreator, List.mem_map_of_mem hcreated⟩, by omega, ?_⟩, hcreator, ?_⟩
  · exact fun r e' hlow hhigh he' => (hsince e' (hbetween r e' hlow hhigh he')).2
  · exact fun r e' hlow hhigh he' => (hsince e' (hbetween r e' hlow hhigh he')).1

/-! ## Runs -/

/-- What is known of a chain without trusted blocks. -/
structure Sound (params : Params) (verify : Verifier) (T : Tables) (t : BlockTree) : Prop where
  /-- validation is consistent -/
  settled : t.Settled params
  /-- the stored coins are those of the main chain -/
  accurate : Accurate T t
  /-- valid nodes were accepted -/
  verified : Verified params verify T t

/-- The branch of the tip was accepted. -/
theorem Sound.accepted {T : Tables} {t : BlockTree} (h : Sound params verify T t) {tip : Nat}
    {n : TreeNode} (htip : t.tip? = some tip) (hn : t.node? tip = some n) :
    Throughout (Block.Accepted params verify) (T.branch t tip) :=
  h.verified hn (h.settled.main_valid htip (mem_lineage_self (node?_lt hn)) hn)

theorem sound_keptByPlans :
    KeptByPlans params verify (fun flags => flags.fastAdd = false) fun T t _ =>
      Sound params verify T t := by
  intro T t best block flags plan p parent keys hflags hm h _ hadds
  have hm' := hm.of_plan hadds
  have hsettled := h.settled.of_plan hm hadds
  have hverified := h.verified.of_plan h.accurate h.settled hm hadds hflags
  refine ⟨hsettled, ?_, hverified⟩
  refine h.accurate.of_plan hm hadds fun {tip} htip _ => ?_
  obtain ⟨n, hn⟩ := BlockTree.exists_node (hm'.path.tip_lt htip)
  exact hverified.fits hm' hn (hsettled.main_valid htip (mem_lineage_self (node?_lt hn)) hn)

theorem sound_keptByLoading :
    KeptByLoading params fun T t _ => Sound params verify T t :=
  fun _ _ _ _ _ hm hm' _ h => ⟨h.settled.of_mirror hm hm', h.accurate.of_mirror hm hm',
    h.verified.of_mirror hm hm'⟩

namespace Chain

variable {c : Chain σ}

/-- The transactions of the main chain in order, with the heights of their blocks. -/
def mainTransactions (c : Chain σ) : List (Nat × Transaction) :=
  c.mainBlocks.zipIdx.flatMap fun (b, height) => b.transactions.map fun tx => (height, tx)

theorem zipIdx_reverse_line (line : List Block) :
    (line.reverse.zipIdx.flatMap fun (b, height) => b.transactions.map fun tx => (height, tx)) =
      (entriesOf line).reverse := by
  induction line with
  | nil => rfl
  | cons b older ih =>
    rw [List.reverse_cons, List.zipIdx_append, List.flatMap_append, ih, entriesOf,
      List.reverse_append, List.reverse_reverse]
    simp

theorem mainTransactions_eq (hm : Mirror params c.tables c.tree) {tip : Nat}
    (htip : c.tree.tip? = some tip) :
    c.mainTransactions = (entriesOf (c.tables.branch c.tree tip)).reverse := by
  rw [mainTransactions, mainBlocks_eq hm htip, zipIdx_reverse_line]

variable [LawfulChainStore σ]

/-- A chain without trusted blocks is sound. -/
theorem Reachable.sound (h : Reachable params verify (fun flags => flags.fastAdd = false) c) :
    Sound params verify c.tables c.tree :=
  (h.invariant (I := fun T t _ => Sound params verify T t)
    ⟨params.elected_genesis.toSettled, params.accurate_genesis, params.verified_genesis verify⟩
    sound_keptByPlans sound_keptByLoading).2

/-- Without trusted blocks, every input on the main chain spends an output that a transaction before
it created, with the right to do so. No two of them spend the same, and no output is referred to
twice unless two transactions have one digest. -/
theorem Reachable.spends_by_right
    (h : Reachable params verify (fun flags => flags.fastAdd = false) c) :
    (∀ p k height tx input, c.mainTransactions[p]? = some (height, tx) → tx.isCoinbase = false →
      tx.inputs[k]? = some input → ∃ q creator output,
        SpendsFrom c.mainTransactions q p k input.previous ∧
        c.mainTransactions[q]? = some creator ∧
        (input.previous, output) ∈ creator.2.spendables ∧
        Entitled params verify height tx k input.unlock creator output) ∧
    (∀ q o p k p' k', SpendsFrom c.mainTransactions q p k o →
      SpendsFrom c.mainTransactions q p' k' o → p = p' ∧ k = k') ∧
    (c.tables.CollisionFree → (c.mainTransactions.flatMap (·.2.spends)).Nodup) := by
  have hm := h.mirror
  have hsound := h.sound
  obtain ⟨tip, n, htip, hn, -⟩ := hm.tip
  have hformed : Throughout (fun b _ => b.WellFormed) (c.tables.branch c.tree tip) :=
    fun _ _ hs => (hm.formed_of_suffix hs).1
  have haccepted := hsound.accepted htip hn
  have hright := byRight_entriesOf hformed haccepted
  rw [mainTransactions_eq hm htip]
  -- the output of an input, and that it is unspent until then
  have hspends : ∀ {p k e input}, (entriesOf (c.tables.branch c.tree tip)).reverse[p]? = some e →
      e.2.isCoinbase = false → e.2.inputs[k]? = some input → ∃ q creator output,
        SpendsFrom (entriesOf (c.tables.branch c.tree tip)).reverse q p k input.previous ∧
        (entriesOf (c.tables.branch c.tree tip)).reverse[q]? = some creator ∧
        (input.previous, output) ∈ creator.2.spendables ∧
        Entitled params verify e.1 e.2 k input.unlock creator output ∧
        ∀ r e', q < r → r < p →
          (entriesOf (c.tables.branch c.tree tip)).reverse[r]? = some e' →
          input.previous ∉ e'.2.spends := by
    intro p k e input he hordinary hinput
    obtain ⟨before, hs, rfl⟩ := getElem?_reverse_line.1 he
    obtain ⟨output, creator, hunspent, hentitled⟩ := hright e before hs hordinary k input hinput
    obtain ⟨q, hfrom, hcreator, hsince⟩ := spendsFrom_of_unspent hs hordinary hinput hunspent
    exact ⟨q, creator, output, hfrom, hcreator, hunspent.created, hentitled, hsince⟩
  refine ⟨?_, ?_, ?_⟩
  · intro p k height tx input htx hordinary hinput
    obtain ⟨q, creator, output, hfrom, hcreator, hcreated, hentitled, -⟩ :=
      hspends htx hordinary hinput
    exact ⟨q, creator, output, hfrom, hcreator, hcreated, hentitled⟩
  · -- the later of two inputs finds the output unspent
    have hearlier : ∀ {q o p k p' k'},
        SpendsFrom (entriesOf (c.tables.branch c.tree tip)).reverse q p k o →
        SpendsFrom (entriesOf (c.tables.branch c.tree tip)).reverse q p' k' o → ¬ p < p' := by
      intro q o p k p' k' hfrom hfrom' hlt
      obtain ⟨e, input, he, hordinary, hinput, rfl⟩ := hfrom.spender
      obtain ⟨e', input', he', hordinary', hinput', heq⟩ := hfrom'.spender
      obtain ⟨q', -, -, hfrom'', -, -, -, hsince⟩ := hspends he' hordinary' hinput'
      rw [heq] at hfrom'' hsince
      obtain rfl := hfrom'.creator_eq hfrom''
      refine hsince p e hfrom.lt hlt he ?_
      rw [Transaction.spends, hordinary, if_neg Bool.false_ne_true]
      exact List.mem_map_of_mem (List.mem_of_getElem? hinput)
    intro q o p k p' k' hfrom hfrom'
    obtain rfl : p = p' :=
      Nat.le_antisymm (Nat.not_lt.1 (hearlier hfrom' hfrom)) (Nat.not_lt.1 (hearlier hfrom hfrom'))
    obtain ⟨e, input, he, -, hinput, rfl⟩ := hfrom.spender
    obtain ⟨e', input', he', -, hinput', heq⟩ := hfrom'.spender
    obtain rfl := Option.some.inj (he.symm.trans he')
    obtain ⟨b, older, hs, -, htx⟩ := mem_entriesOf.1
      (List.mem_reverse.1 (List.mem_of_getElem? he))
    have hnodup := ((hformed b older hs).transactions _ htx).inputs_nodup
    refine ⟨rfl, (List.getElem?_inj ?_ hnodup).1 ?_⟩
    · rw [List.length_map]
      exact (List.getElem?_eq_some_iff.1 hinput).1
    · rw [List.getElem?_map, List.getElem?_map, hinput, hinput', Option.map_some, Option.map_some,
        heq]
  · intro hfree
    have hconnects := (hsound.accurate.fits htip).imp fun _ _ hb => hb.connects
    exact ((List.reverse_perm _).flatMap_right _).nodup_iff.2 (hm.accounted hfree hconnects).2.once

/-- In the sample run the second transaction of the second block spends the coinbase of the first, by
right. -/
theorem spends_by_right_after_run : ∃ (c : Chain MemoryStore) (p q : Nat)
    (creator : Nat × Transaction) (output : TxOutput),
    c.mainTransactions[p]? = some (2, Sample.spend (Sample.coinbase 1 2)) ∧
      SpendsFrom c.mainTransactions q p 0 ((Sample.coinbase 1 2).outPoint 0) ∧
      c.mainTransactions[q]? = some creator ∧
      Entitled Sample.network Sample.trusting 2 (Sample.spend (Sample.coinbase 1 2)) 0
        (.signatures [⟨Sample.key, []⟩]) creator output := by
  obtain ⟨c, hc, hbest, hblock, -⟩ :=
    Sample.exists_run (fun flags => flags.fastAdd = false) rfl
  obtain ⟨tip, n, htip, hn, hhash, -⟩ := hc.best_isTipOf
  obtain ⟨b, older, hbranch, hb⟩ := hc.mirror.exists_branch_eq_cons hn
  obtain ⟨b', hb', -, -, hrepeats⟩ := hc.mirror.block hn
  obtain rfl := Option.some.inj (hb.symm.trans hb')
  rw [← hhash, hbest, hblock] at hb
  obtain rfl := Option.some.inj hb
  have hheight : older.length = 2 := by
    have hlen := hc.mirror.length_branch hn
    have htwo : Sample.second.coinbaseHeight? = some 2 := by decide +kernel
    rw [hbranch, List.length_cons, ← Option.some.inj (htwo.symm.trans hrepeats)] at hlen
    exact Nat.succ.inj hlen
  have hmem : (2, Sample.spend (Sample.coinbase 1 2)) ∈ c.mainTransactions := by
    rw [mainTransactions_eq hc.mirror htip, List.mem_reverse, hbranch, mem_entriesOf]
    exact ⟨Sample.second, older, List.suffix_refl _, hheight.symm,
      List.mem_cons_of_mem _ (List.mem_singleton_self _)⟩
  obtain ⟨p, hp⟩ := List.mem_iff_getElem?.1 hmem
  obtain ⟨q, creator, output, hfrom, hcreator, -, hentitled⟩ :=
    hc.spends_by_right.1 p 0 _ _ _ hp (by decide +kernel) rfl
  exact ⟨c, p, q, creator, output, hp, hfrom, hcreator, hentitled⟩

end Chain

end PermissionedLedger
