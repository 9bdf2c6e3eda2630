import Mathlib
import PermissionedLedger.Chain.Queries
import PermissionedLedger.Proofs.Chain.Runs

/-!
# Replaying the main chain

What a reachable chain stores of coins and journals is what comes of connecting the
blocks of its main chain one after another, from nothing (`CoinView.replay`), although
it got there by undoing and connecting blocks of many branches, and some of them were
trusted.

It is assumed that stored transactions of one digest are one transaction. Otherwise, a
trusted block could replace an output, and undoing it would not bring the output back.
-/

namespace PermissionedLedger

open CoinView BlockTree

/-! ## Replaying -/

namespace CoinView

/-- Connects blocks in ascending order, without checking them. The journals are those of the blocks,
in the same order. -/
def replay : (height : Nat) → CoinView → List Block →
    Except Inconsistency Unit × CoinView × List Journal
  | _, v, [] => (.ok (), v, [])
  | height, v, b :: bs =>
    match v.connect b height with
    | (.ok (), v, journal) =>
      let (result, v, journals) := replay (height + 1) v bs
      (result, v, journal :: journals)
    | (.error cause, v, _) => (.error cause, v, [])

theorem replay_append {height : Nat} {v u w : CoinView} {as bs : List Block}
    {js ks : List Journal} (h : replay height v as = (.ok (), u, js))
    (h' : replay (height + as.length) u bs = (.ok (), w, ks)) :
    replay height v (as ++ bs) = (.ok (), w, js ++ ks) := by
  induction as generalizing height v js with
  | nil =>
    obtain ⟨-, rfl, rfl⟩ := h
    exact h'
  | cons a as ih =>
    rw [replay] at h
    rcases hc : v.connect a height with ⟨_ | _, v', journal⟩
    · rw [hc] at h
      cases (Prod.mk.inj h).1
    · rw [hc] at h
      rcases hr : replay (height + 1) v' as with ⟨r, u', js'⟩
      simp only [hr] at h
      obtain ⟨rfl, rfl, rfl⟩ := h
      rw [List.length_cons, Nat.add_comm as.length, ← Nat.add_assoc] at h'
      rw [List.cons_append, replay]
      simp only [hc, ih hr h', List.cons_append]

end CoinView

/-! ## Along a line -/

section Along

variable {α β : Type} {line : List α} {height : Nat}

/-- What comes of each element of a line over those below it, the newest first. -/
def along (f : α → List α → β) : List α → List β
  | [] => []
  | a :: older => f a older :: along f older

theorem length_along (f : α → List α → β) (line : List α) :
    (along f line).length = line.length := by
  induction line with
  | nil => rfl
  | cons b older ih => rw [along, List.length_cons, List.length_cons, ih]

theorem along_fst (line : List α) : along (fun a _ => a) line = line := by
  induction line with
  | nil => rfl
  | cons b older ih => rw [along, ih]

/-- In ascending order, what is at a height comes of the element there. -/
theorem getElem?_reverse_along {f : α → List α → β} {b : β} :
    (along f line).reverse[height]? = some b ↔
      ∃ a older, a :: older <:+ line ∧ older.length = height ∧ b = f a older := by
  induction line with
  | nil =>
    simp only [along, List.reverse_nil, List.getElem?_nil, reduceCtorEq, false_iff, not_exists]
    rintro a older ⟨h, -⟩
    cases List.suffix_nil.1 h
  | cons a older ih =>
    have hcases : ∀ {c rest}, c :: rest <:+ a :: older ↔
        c = a ∧ rest = older ∨ c :: rest <:+ older := fun {c rest} => by
      rw [List.suffix_cons_iff, List.cons.injEq]
    have hshort : ∀ {c : α} {rest}, c :: rest <:+ older → rest.length < older.length := by
      intro c rest hs
      have hle := hs.length_le
      rw [List.length_cons] at hle
      omega
    rw [along, List.reverse_cons, List.getElem?_append, List.length_reverse, length_along]
    split
    · next hlow =>
      rw [ih]
      constructor
      · rintro ⟨c, rest, hs, hlen, rfl⟩
        exact ⟨c, rest, hcases.2 (Or.inr hs), hlen, rfl⟩
      · rintro ⟨c, rest, hs, hlen, rfl⟩
        rcases hcases.1 hs with ⟨-, rfl⟩ | hs
        · omega
        · exact ⟨c, rest, hs, hlen, rfl⟩
    · next hlow =>
      rw [List.getElem?_singleton]
      constructor
      · intro hb
        split at hb
        · next hzero =>
          obtain rfl := Option.some.inj hb
          exact ⟨a, older, List.suffix_refl _, by omega, rfl⟩
        · cases hb
      · rintro ⟨c, rest, hs, hlen, rfl⟩
        rcases hcases.1 hs with ⟨rfl, rfl⟩ | hs
        · rw [if_pos (by omega)]
        · have := hshort hs
          omega

theorem getElem?_reverse_line {a : α} :
    line.reverse[height]? = some a ↔ ∃ older, a :: older <:+ line ∧ older.length = height := by
  have h : (along (fun a _ => a) line).reverse[height]? = some a ↔ _ := getElem?_reverse_along
  rw [along_fst] at h
  rw [h]
  constructor
  · rintro ⟨c, older, hs, hlen, rfl⟩
    exact ⟨older, hs, hlen⟩
  · rintro ⟨older, hs, hlen⟩
    exact ⟨a, older, hs, hlen, rfl⟩

end Along

/-- Replaying a line from its oldest block on leaves what there is to spend after it. -/
theorem replay_reverse {line : List Block}
    (h : Throughout (fun b older => ((ofLine older).connect b older.length).1 = .ok ()) line) :
    replay 0 ⟨∅, ∅⟩ line.reverse = (.ok (), ofLine line, (along journalOf line).reverse) := by
  induction line with
  | nil => rfl
  | cons b older ih =>
    obtain ⟨hb, holder⟩ := Throughout.cons_iff.1 h
    rw [List.reverse_cons, along, List.reverse_cons]
    refine replay_append (ih holder) ?_
    rw [List.length_reverse, Nat.zero_add, replay, connect_ofLine hb]
    rfl

/-! ## Runs -/

section Runs

variable {σ : Type} [ChainStore σ] {params : Params} {verify : Verifier}

section Plans

variable {s : Plan.Setting} {t : BlockTree} {best : BestState} {block : Block} {flags : AddFlags}
  {plan : Plan} {p : Nat} {parent : TreeNode} {keys : KeySets}

/-- Stored blocks stay as they are. -/
theorem Plan.Adds.blocks_grow (hadds : Plan.Adds s t best block flags p parent keys plan)
    (hm : Mirror s.params s.tables t) {hash : Digest} {b : Block}
    (hb : s.tables.blocks[hash]? = some b) :
    (s.tables.writeAll plan.batch).blocks[hash]? = some b := by
  rw [hadds.getElem?_blocks, if_neg]
  · exact hb
  · rintro rfl
    have hknown := hm.blocks_known hb
    rw [BlockTree.contains, hadds.unknown] at hknown
    cases hknown

/-- Without collisions after a plan, there were none before. -/
theorem Plan.Adds.collisionFree (hadds : Plan.Adds s t best block flags p parent keys plan)
    (hm : Mirror s.params s.tables t) (hfree : (s.tables.writeAll plan.batch).CollisionFree) :
    s.tables.CollisionFree :=
  fun hb hb' => hfree (hadds.blocks_grow hm hb) (hadds.blocks_grow hm hb')

/-- Without collisions, the stored coins are those of the main chain before a plan and after it. -/
theorem Plan.Adds.accurate_of_collisionFree
    (hadds : Plan.Adds s t best block flags p parent keys plan) (hm : Mirror s.params s.tables t)
    (h : s.tables.CollisionFree → Accurate s.tables t)
    (hfree : (s.tables.writeAll plan.batch).CollisionFree) :
    Accurate s.tables t ∧ Accurate (s.tables.writeAll plan.batch) plan.tree := by
  have hm' := hm.of_plan hadds
  have hold := h (hadds.collisionFree hm hfree)
  refine ⟨hold, hold.of_plan hm hadds fun _ hconnects => ?_⟩
  exact (hm'.accounted hfree hconnects).1

end Plans

theorem accurate_keptByPlans {allowed : AddFlags → Prop} :
    KeptByPlans params verify allowed fun T t _ => T.CollisionFree → Accurate T t :=
  fun _ _ _ _ _ _ _ _ _ _ hm h _ hadds hfree => (hadds.accurate_of_collisionFree hm h hfree).2

theorem accurate_keptByLoading :
    KeptByLoading params fun T t _ => T.CollisionFree → Accurate T t :=
  fun _ _ _ _ _ hm hm' _ h hfree => (h hfree).of_mirror hm hm'

namespace Chain

variable {c : Chain σ} {allowed : AddFlags → Prop}

/-- The blocks of the main chain in ascending order. -/
def mainBlocks (c : Chain σ) : List Block :=
  c.tree.main.toList.filterMap fun i => (c.tree.node? i).bind fun n => c.tables.blocks[n.hash]?

theorem mainBlocks_eq (hm : Mirror params c.tables c.tree) {tip : Nat}
    (htip : c.tree.tip? = some tip) : c.mainBlocks = (c.tables.branch c.tree tip).reverse := by
  rw [mainBlocks, hm.path tip htip, Tables.branch, lineageNodes, List.filterMap_filterMap,
    List.filterMap_reverse]

/-- The blocks of the main chain are those of its nodes. -/
theorem map_hash_mainBlocks (hm : Mirror params c.tables c.tree) (height : Nat) :
    (c.mainBlocks[height]?).map (·.hash) = c.mainHash? height := by
  obtain ⟨tip, -, htip, -⟩ := hm.tip
  have hnodes : ∀ i ∈ c.tree.main.toList, ∃ n, c.tree.node? i = some n := by
    intro i hi
    rw [hm.path tip htip, List.mem_reverse] at hi
    exact BlockTree.exists_node (lt_size_of_mem_lineage hi)
  rw [mainBlocks, mainHash?, mainAt?, ← Array.getElem?_toList]
  generalize c.tree.main.toList = ids at hnodes
  induction ids generalizing height with
  | nil => rfl
  | cons i ids ih =>
    obtain ⟨n, hn⟩ := hnodes i (List.mem_cons_self ..)
    obtain ⟨b, hb, -⟩ := hm.block hn
    rw [List.filterMap_cons, hn, Option.bind_some, hb]
    cases height with
    | zero =>
      simp only [List.getElem?_cons_zero, Option.map_some, Option.bind_some, hn]
      rw [(hm.block_hash hn hb).2]
    | succ height =>
      simp only [List.getElem?_cons_succ]
      exact ih height fun j hj => hnodes j (List.mem_cons_of_mem _ hj)

variable [LawfulChainStore σ]

/-- The coins and journals that a reachable chain stores are those of its main chain. -/
theorem Reachable.accurate (h : Reachable params verify allowed c)
    (hfree : c.tables.CollisionFree) : Accurate c.tables c.tree :=
  (h.invariant (fun _ => params.accurate_genesis) accurate_keptByPlans accurate_keptByLoading).2
    hfree

/-- The coins that a reachable chain stores are those that are left when its main chain is replayed
from nothing. It stores journals of the blocks of the main chain only, and these are those that the
replay produces. -/
theorem Reachable.stored_eq_replay (h : Reachable params verify (fun _ => True) c)
    (hfree : c.tables.CollisionFree) :
    (∀ height, (c.mainBlocks[height]?).map (·.hash) = c.mainHash? height) ∧
    ∃ v journals, replay 0 ⟨∅, ∅⟩ c.mainBlocks = (.ok (), v, journals) ∧
      journals.length = c.mainBlocks.length ∧ (∀ o, c.coin? o = v.lookup? o) ∧
      ∀ hash journal, c.tables.journals[hash]? = some journal ↔
        ∃ (height : Nat) (b : Block), c.mainBlocks[height]? = some b ∧ b.hash = hash ∧
          journals[height]? = some journal := by
  have hm := h.mirror
  have ha := h.accurate hfree
  obtain ⟨tip, -, htip, -⟩ := hm.tip
  refine ⟨map_hash_mainBlocks hm, ?_⟩
  rw [mainBlocks_eq hm htip]
  refine ⟨_, _, replay_reverse fun b older hs => (ha.fits htip b older hs).connects,
    by rw [List.length_reverse, length_along, List.length_reverse], ha.coins htip, fun hash journal => ?_⟩
  constructor
  · intro hj
    obtain ⟨i, n, hi, hn, rfl⟩ := ha.journals_main htip hj
    obtain ⟨b, older, hbranch, hb⟩ := hm.exists_branch_eq_cons hn
    have hs : b :: older <:+ c.tables.branch c.tree tip := hbranch ▸ Mirror.branch_suffix _ hi
    obtain ⟨-, hhash⟩ := hm.block_hash hn hb
    have hjournal := ha.journals htip b older hs
    rw [hhash, hj] at hjournal
    exact ⟨older.length, b, getElem?_reverse_line.2 ⟨older, hs, rfl⟩, hhash,
      getElem?_reverse_along.2 ⟨b, older, hs, rfl, Option.some.inj hjournal⟩⟩
  · rintro ⟨height, b, hb, rfl, hj⟩
    obtain ⟨older, hs, hlen⟩ := getElem?_reverse_line.1 hb
    obtain ⟨b', older', hs', hlen', rfl⟩ := getElem?_reverse_along.1 hj
    -- a line has one block at a height
    have hsame : b' :: older' = b :: older := by
      refine List.IsSuffix.eq_of_length (List.suffix_of_suffix_length_le hs' hs ?_) ?_
      · rw [List.length_cons, List.length_cons, hlen, hlen']
      · rw [List.length_cons, List.length_cons, hlen, hlen']
    obtain ⟨rfl, rfl⟩ := List.cons.inj hsame
    exact ha.journals htip b' older' hs'

/-- The sample run undoes and connects the first block again, and stores what a replay of the two
blocks that remain comes to. -/
theorem stored_eq_replay_after_run : ∃ c : Chain MemoryStore, c.best.hash = Sample.second.hash ∧
    c.tree.size = 4 ∧ ∃ v journals, replay 0 ⟨∅, ∅⟩ c.mainBlocks = (.ok (), v, journals) ∧
      ∀ o, c.coin? o = v.lookup? o := by
  obtain ⟨c, hc, hbest, -, hsize, -, hfree⟩ := Sample.exists_run (fun _ => True) trivial
  obtain ⟨-, v, journals, hreplay, -, hcoins, -⟩ := hc.stored_eq_replay hfree
  exact ⟨c, hbest, hsize, v, journals, hreplay, hcoins⟩

end Chain

end Runs

end PermissionedLedger
