import Mathlib
import PermissionedLedger.Proofs.Tree.Placed

/-!
# Signer limits

When a block is checked against a signer policy, only the blocks of its own key are counted,
in the window that the block ends (`SignerPolicy.limits_of_check`). The limits hold in every
window for every key all the same, because a key reaches its largest number of blocks in a
window with a block of its own: what comes later in the window does not count, and the
window that ends there begins no later (`countP_range'_le`).

A branch is read by height here (`BlockTree.signerAt?`), so that windows are ranges of
heights (`BlockTree.signed`).
-/

namespace PermissionedLedger

/-! ## Windows -/

/-- If no window that ends with a hit has too many hits, neither does one that starts late
enough, nor one that is shorter. -/
theorem countP_range'_le {hit : Nat → Bool} {width bound first : Nat}
    (h : ∀ last, first ≤ last → hit last = true →
      (List.range' (last + 1 - width) width).countP hit ≤ bound) (hfirst : width ≤ first)
    {len : Nat} (hlen : len ≤ width) : (List.range' first len).countP hit ≤ bound := by
  induction len with
  | zero => exact Nat.zero_le _
  | succ len ih =>
    rw [List.range'_1_concat, List.countP_append, List.countP_singleton]
    by_cases hlast : hit (first + len) = true
    · have hsplit : List.range' (first + len + 1 - width) width =
          List.range' (first + len + 1 - width) (width - (len + 1)) ++
            (List.range' first len ++ [first + len]) := by
        rw [← List.range'_1_concat, show width = width - (len + 1) + (len + 1) by omega]
        rw [← List.range'_append_1]
        congr 2 <;> omega
      have hwindow := h (first + len) (Nat.le_add_right _ _) hlast
      rw [hsplit, List.countP_append, List.countP_append, List.countP_singleton] at hwindow
      omega
    · rw [if_neg hlast, Nat.add_zero]
      exact ih (Nat.le_of_succ_le hlen)

/-- Where fewer elements than that come before the first miss, there is a miss among so many. -/
theorem countP_take_lt {α : Type} {hit : α → Bool} {as : List α} {count : Nat}
    (h : (as.takeWhile hit).length < count) : (as.take count).countP hit < count := by
  refine Nat.lt_of_le_of_ne (Nat.le_trans List.countP_le_length (List.length_take_le ..)) ?_
  intro heq
  have hlen : (as.take count).length = count :=
    Nat.le_antisymm (List.length_take_le ..) (heq.ge.trans List.countP_le_length)
  have hall : ∀ a ∈ as.take count, hit a = true :=
    List.countP_eq_length.1 (heq.trans hlen.symm)
  rw [← List.take_append_drop count as, List.takeWhile_append_of_pos hall, List.length_append,
    hlen] at h
  omega

/-! ## The check -/

namespace SignerPolicy

variable {policy : SignerPolicy}

/-- The products by which the share of a signer is compared do not wrap around. -/
structure Fits (policy : SignerPolicy) : Prop where
  /-- a signer has signed the whole window at most -/
  signed : policy.window.toNat * 100 < 2 ^ 64
  /-- the share that is allowed -/
  allowed : policy.window.toNat * policy.maxSharePercent.toNat < 2 ^ 64

/-- A block that passes the check leaves its signer within both limits, itself counted. -/
theorem limits_of_check (hfits : policy.Fits) {signers : List PublicKey} {key : PublicKey}
    {height : Nat} (hpos : 0 < policy.window.toNat) (hheight : policy.window.toNat ≤ height)
    (h : policy.check signers key height = .ok ()) :
    ((key :: signers).take policy.window.toNat).countP (· = key) * 100 ≤
        policy.window.toNat * policy.maxSharePercent.toNat ∧
      (policy.maxTrailing.toNat < policy.window.toNat →
        ((key :: signers).take (policy.maxTrailing.toNat + 1)).countP (· = key) ≤
          policy.maxTrailing.toNat) := by
  obtain ⟨before, hbefore⟩ := Nat.exists_eq_add_one.2 hpos
  have hself : ∀ count, ((key :: signers).take (count + 1)).countP (· = key) =
      1 + (signers.take count).countP (· = key) := by
    intro count
    rw [List.take_succ_cons, List.countP_cons, if_pos (decide_eq_true rfl), Nat.add_comm]
  rw [check, if_neg (Nat.not_lt.2 hheight)] at h
  obtain ⟨htrailing, hshare⟩ := require_bind_eq_ok.1 h
  rw [require_eq_ok] at hshare
  rw [hbefore, Nat.add_sub_cancel] at htrailing hshare
  constructor
  · rw [hbefore, hself, ← hbefore]
    have hle : 1 + (signers.take before).countP (· = key) ≤ policy.window.toNat := by
      have hcount : (signers.take before).countP (· = key) ≤ before :=
        Nat.le_trans List.countP_le_length (List.length_take_le ..)
      omega
    have hsmall := Nat.lt_of_le_of_lt (Nat.mul_le_mul_right 100 hle) hfits.signed
    have hsigned := Nat.lt_of_le_of_lt (Nat.le_mul_of_pos_right _ (by decide)) hsmall
    rw [UInt64.le_iff_toNat_le, UInt64.toNat_mul, UInt64.toNat_mul, UInt64.toNat_ofNat',
      Nat.mod_eq_of_lt hsigned, Nat.mod_eq_of_lt hfits.allowed] at hshare
    exact Nat.mod_eq_of_lt hsmall ▸ hshare
  · intro hlt
    have htake := countP_take_lt (Nat.lt_of_succ_le (Nat.add_comm 1 _ ▸ htrailing))
    rw [List.take_take, Nat.min_eq_left (by omega)] at htake
    rw [hself, Nat.add_comm]
    exact htake

end SignerPolicy

namespace BlockTree

variable {params : Params} {policy : SignerPolicy} {t : BlockTree} {a i p : Nat} {n : TreeNode}
  {key : PublicKey} {first count : Nat}

/-! ## Branches by height -/

/-- The signer of the block that a branch has at a height. -/
def signerAt? (t : BlockTree) (i height : Nat) : Option PublicKey :=
  ((t.ancestor? i height).bind t.node?).map (·.header.validator)

/-- The number of blocks that a key has signed, of as many as given from a height on. -/
def signed (t : BlockTree) (i first count : Nat) (key : PublicKey) : Nat :=
  (List.range' first count).countP fun height => t.signerAt? i height = some key

theorem signerAt?_eq (ht : t.Coherent) (hm : t.MainPath) (i height : Nat) :
    t.signerAt? i height = (t.signers i).reverse[height]? := by
  rw [signers, ← List.map_reverse, List.getElem?_map, getElem?_reverse_headers ht hm,
    Option.map_map]
  rfl

theorem signers_child (hn : t.node? i = some n) (hp : n.parent = some p) :
    t.signers i = n.header.validator :: t.signers p := by
  rw [signers, headers_child hn hp]
  rfl

theorem length_signers (ht : t.Coherent) (hn : t.node? i = some n) :
    (t.signers i).length = n.height + 1 := by
  rw [signers, List.length_map, length_headers ht hn]

/-- A block and its ancestors have the same signers. -/
theorem signerAt?_of_mem (ht : t.Coherent) (hm : t.MainPath) (ha : a ∈ t.lineage i)
    (hn : t.node? a = some n) {height : Nat} (hle : height ≤ n.height) :
    t.signerAt? i height = t.signerAt? a height := by
  rw [signerAt?, signerAt?, ancestor?_eq ht hm, ancestor?_eq ht hm,
    lineage_eq_pathFrom_append ha, List.reverse_append, List.getElem?_append_left]
  rw [List.length_reverse, ht.length_lineage hn]
  omega

theorem signed_of_mem (ht : t.Coherent) (hm : t.MainPath) (ha : a ∈ t.lineage i)
    (hn : t.node? a = some n) (hle : first + count ≤ n.height + 1) :
    t.signed i first count key = t.signed a first count key := by
  refine List.countP_congr fun height hheight => ?_
  rw [List.mem_range'_1] at hheight
  rw [signerAt?_of_mem ht hm ha hn (by omega)]

/-- The latest blocks of a branch are those at the heights up to its own. -/
theorem signed_latest (ht : t.Coherent) (hm : t.MainPath) (hn : t.node? i = some n)
    (hcount : count ≤ n.height + 1) (key : PublicKey) :
    t.signed i (n.height + 1 - count) count key =
      ((t.signers i).take count).countP (· = key) := by
  have hlen := length_signers ht hn
  have hmap : (List.range' (n.height + 1 - count) count).map (t.signerAt? i) =
      ((t.signers i).take count).reverse.map some := by
    refine List.ext_getElem? fun k => ?_
    rw [List.getElem?_map, List.getElem?_map]
    by_cases hk : k < count
    · rw [List.getElem?_range' hk, Option.map_some, signerAt?_eq ht hm,
        List.getElem?_reverse (by omega), List.getElem?_reverse (by rw [List.length_take]; omega),
        List.getElem?_take_of_lt (by rw [List.length_take]; omega), List.length_take, hlen,
        Nat.min_eq_left hcount,
        show n.height + 1 - 1 - (n.height + 1 - count + 1 * k) = count - 1 - k by omega,
        List.getElem?_eq_getElem (by omega)]
      rfl
    · rw [List.getElem?_eq_none, List.getElem?_eq_none] <;> simp <;> omega
  have hcounts := congrArg (List.countP fun signer => decide (signer = some key)) hmap
  rw [List.countP_map, List.countP_map, List.countP_reverse] at hcounts
  simp only [Function.comp_def, Option.some.injEq] at hcounts
  exact hcounts

/-! ## Limits -/

/-- A key has signed neither too many of the blocks examined at a height, nor too many in a row. -/
structure WithinLimits (t : BlockTree) (policy : SignerPolicy) (i last : Nat) (key : PublicKey) :
    Prop where
  /-- its share of the window -/
  share : t.signed i (last + 1 - policy.window.toNat) policy.window.toNat key * 100 ≤
    policy.window.toNat * policy.maxSharePercent.toNat
  /-- of one block more than it may sign in a row, it lacks one -/
  row : policy.maxTrailing.toNat < policy.window.toNat →
    t.signed i (last - policy.maxTrailing.toNat) (policy.maxTrailing.toNat + 1) key ≤
      policy.maxTrailing.toNat

/-- An ancestor that is within the limits is so on every branch through it. -/
theorem WithinLimits.of_mem (h : t.WithinLimits policy a n.height key) (ht : t.Coherent)
    (hm : t.MainPath) (ha : a ∈ t.lineage i) (hn : t.node? a = some n)
    (hheight : policy.window.toNat ≤ n.height) : t.WithinLimits policy i n.height key where
  share := by
    rw [signed_of_mem ht hm ha hn (by omega)]
    exact h.share
  row hlt := by
    rw [signed_of_mem ht hm ha hn (by omega)]
    exact h.row hlt

/-- A block that was placed where the limits apply leaves its signer within them. -/
theorem Placed.signer_limited (h : t.Placed params i) (ht : t.Coherent) (hm : t.MainPath)
    (hpolicy : params.signerPolicy = some policy) (hfits : policy.Fits)
    (hpos : 0 < policy.window.toNat) (hn : t.node? i = some n)
    (hheight : policy.window.toNat ≤ n.height) :
    t.WithinLimits policy i n.height n.header.validator := by
  obtain ⟨p, hp⟩ : ∃ p, n.parent = some p := by
    rcases hp : n.parent with _ | p
    · rw [(ht.of_root hn hp).1] at hheight
      exact absurd hheight (Nat.not_le.2 hpos)
    · exact ⟨p, rfl⟩
  have hlen : (t.signers p).length = n.height := by
    have hlen := length_signers ht hn
    rw [signers_child hn hp, List.length_cons] at hlen
    exact Nat.succ.inj hlen
  obtain ⟨hshare, hrow⟩ := SignerPolicy.limits_of_check hfits hpos (hlen.symm ▸ hheight)
    (h.signer_check hpolicy hn hp)
  rw [← signers_child hn hp] at hshare hrow
  constructor
  · rw [signed_latest ht hm hn (by omega)]
    exact hshare
  · intro hlt
    rw [← Nat.add_sub_add_right n.height 1, signed_latest ht hm hn (by omega)]
    exact hrow hlt

/-- Where all blocks of a branch were placed, no key has too large a share of any window at heights
where the limits apply, and none has signed too many blocks in a row up to such a height. -/
theorem signers_limited (ht : t.Coherent) (hm : t.MainPath)
    (hpolicy : params.signerPolicy = some policy) (hfits : policy.Fits)
    (hpos : 0 < policy.window.toNat) (hplaced : ∀ j ∈ t.lineage i, t.Placed params j)
    (key : PublicKey) :
    (∀ first, policy.window.toNat ≤ first →
      t.signed i first policy.window.toNat key * 100 ≤
        policy.window.toNat * policy.maxSharePercent.toNat) ∧
    (policy.maxTrailing.toNat < policy.window.toNat → ∀ last, policy.window.toNat ≤ last →
      t.signed i (last - policy.maxTrailing.toNat) (policy.maxTrailing.toNat + 1) key ≤
        policy.maxTrailing.toNat) := by
  -- the key is within the limits wherever it has signed
  have hlimits : ∀ last, policy.window.toNat ≤ last → t.signerAt? i last = some key →
      t.WithinLimits policy i last key := by
    intro last hlast hsigner
    obtain ⟨n, hat, rfl⟩ := Option.map_eq_some_iff.1 hsigner
    obtain ⟨a, ha, hn⟩ := Option.bind_eq_some_iff.1 hat
    obtain ⟨hmem, m, hm', rfl⟩ := (ancestor?_eq_some ht hm).1 ha
    obtain rfl := Option.some.inj (hn.symm.trans hm')
    have hsigned := (hplaced a hmem).signer_limited ht hm hpolicy hfits hpos hn hlast
    exact hsigned.of_mem ht hm hmem hn hlast
  constructor
  · intro first hfirst
    rw [← Nat.le_div_iff_mul_le (by decide)]
    refine countP_range'_le (fun last hle hsigner => ?_) hfirst (Nat.le_refl _)
    rw [Nat.le_div_iff_mul_le (by decide)]
    exact (hlimits last (by omega) (of_decide_eq_true hsigner)).share
  · intro hlt last hlast
    by_cases hsigner : t.signerAt? i last = some key
    · exact (hlimits last hlast hsigner).row hlt
    · -- the last of them is not among those signed
      rw [signed, List.range'_1_concat, List.countP_append, List.countP_singleton,
        show last - policy.maxTrailing.toNat + policy.maxTrailing.toNat = last by omega,
        if_neg (by rw [decide_eq_true_eq]; exact hsigner), Nat.add_zero]
      exact Nat.le_trans List.countP_le_length (Nat.le_of_eq List.length_range')

/-- On a branch that two keys have signed in turn, neither has signed more than one of two blocks,
nor two in a row. -/
theorem signers_limited_of_two_signers : ∃ t,
    BranchSample.network.signerPolicy = some ⟨2, 50, 1⟩ ∧ Grown BranchSample.network t ∧
    t.signers 3 = [2, 1, 2, 1].map .ofNat ∧ t.signed 3 2 2 (.ofNat 1) * 100 ≤ 2 * 50 ∧
    t.signed 3 1 2 (.ofNat 1) ≤ 1 := by
  obtain ⟨t, hgrown, -, -, hsigners, -⟩ := BranchSample.exists_branch
  obtain ⟨ht, hm⟩ := hgrown.built.invariant
  have hpolicy : BranchSample.network.signerPolicy = some ⟨2, 50, 1⟩ := rfl
  obtain ⟨hshare, hrow⟩ := signers_limited (i := 3) ht hm hpolicy ⟨by decide, by decide⟩
    (by decide) (fun j _ => hgrown.placed j) (.ofNat 1)
  exact ⟨t, hpolicy, hgrown, hsigners, hshare 2 (Nat.le_refl 2), hrow (by decide) 2 (by decide)⟩

end BlockTree

end PermissionedLedger
