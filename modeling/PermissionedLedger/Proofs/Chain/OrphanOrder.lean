import Mathlib
import PermissionedLedger.Chain.OrphanIndex
import PermissionedLedger.Proofs.Chain.Pool
import PermissionedLedger.Proofs.Time.Order

/-!
# What leaves the pool of orphans

A pool that was filled from nothing with blocks that it did not hold is `Ordered`: the orphans
have digests of their own, they stand in the order of their turns, and there are no more of them
than the capacity. Then the orphan that gives way is determined, at most one gives way to a new
block, and what a call leaves in the pool is known (`Ordered.held_perform`): an orphan leaves in
one of four ways (`OrphanPool.Leaves`), the others stay in their order, and what is new comes
after them.
-/

namespace PermissionedLedger

open Time (Instant)

/-! ## Which of two gives way -/

/-- One orphan gives way before another. -/
def Orphan.Before (a b : Orphan) : Prop :=
  a.expiry < b.expiry ∨ (a.expiry = b.expiry ∧ a.turn < b.turn)

namespace Orphan

variable {a b c o : Orphan} {os : List Orphan}

theorem isOlder_iff : a.isOlder b = true ↔ a.Before b := by
  rw [isOlder, Bool.or_eq_true, Bool.and_eq_true, decide_eq_true_iff, decide_eq_true_iff,
    decide_eq_true_iff, Before]

theorem isExpired_iff {now : Instant} : o.isExpired now = false ↔ now < o.expiry := by
  rw [isExpired, decide_eq_false_iff_not, Instant.not_le]

theorem Before.trans (hab : a.Before b) (hbc : b.Before c) : a.Before c := by
  rcases hab with hab | ⟨hab, hturn⟩
  · rcases hbc with hbc | ⟨hbc, -⟩
    · exact .inl (Instant.lt_trans hab hbc)
    · exact .inl (hbc ▸ hab)
  · rcases hbc with hbc | ⟨hbc, hturn'⟩
    · exact .inl (hab ▸ hbc)
    · exact .inr ⟨hab.trans hbc, hturn.trans hturn'⟩

theorem Before.asymm (hab : a.Before b) : ¬ b.Before a := by
  rintro (hba | ⟨hba, hturn'⟩)
  · rcases hab with hab | ⟨hab, -⟩
    · exact Instant.lt_asymm hab hba
    · exact Instant.lt_asymm (hab ▸ hba) (hab ▸ hba)
  · rcases hab with hab | ⟨-, hturn⟩
    · exact Instant.lt_asymm (hba ▸ hab) (hba ▸ hab)
    · exact absurd hturn hturn'.not_gt

/-- Only the turns can leave it open which of two gives way. -/
theorem before_or_before (hturn : a.turn ≠ b.turn) : a.Before b ∨ b.Before a := by
  rcases Instant.lt_or_eq_or_gt a.expiry b.expiry with hlt | heq | hgt
  · exact .inl (.inl hlt)
  · rcases Nat.lt_or_gt_of_ne hturn with hlt | hgt
    · exact .inl (.inr ⟨heq, hlt⟩)
    · exact .inr (.inr ⟨heq.symm, hgt⟩)
  · exact .inr (.inl hgt)

instance : Std.Irrefl fun a b : Orphan => a.turn < b.turn := ⟨fun a => Nat.lt_irrefl a.turn⟩

instance : Std.Antisymm fun a b : Orphan => a.turn < b.turn := ⟨fun _ _ h h' => absurd h' h.not_gt⟩

/-- The search for the oldest ends at one that is before all others. -/
theorem foldl_older_before (hturns : (o :: os).Pairwise fun a b => a.turn ≠ b.turn)
    (hb : b ∈ o :: os) :
    os.foldl (fun oldest o => if o.isOlder oldest then o else oldest) o = b ∨
      (os.foldl (fun oldest o => if o.isOlder oldest then o else oldest) o).Before b := by
  -- `b` is the one met so far, or comes later; the one met so far only gets older
  induction os generalizing o b with
  | nil => exact .inl (List.mem_singleton.1 hb).symm
  | cons o' os ih =>
    obtain ⟨ho, hos⟩ := List.pairwise_cons.1 hturns
    have hother : (o :: os).Pairwise fun a b => a.turn ≠ b.turn :=
      List.pairwise_cons.2 ⟨fun c hc => ho c (List.mem_cons_of_mem _ hc), hos.of_cons⟩
    rw [List.foldl_cons]
    by_cases holder : o'.isOlder o = true
    · rw [if_pos holder]
      rcases List.mem_cons.1 hb with rfl | hb
      · rcases ih hos (List.mem_cons_self ..) with heq | hbefore
        · exact .inr (heq.symm ▸ isOlder_iff.1 holder)
        · exact .inr (hbefore.trans (isOlder_iff.1 holder))
      · exact ih hos hb
    · rw [if_neg holder]
      have hlater : o.Before o' :=
        (before_or_before (ho o' (List.mem_cons_self ..))).resolve_right
          fun h => holder (isOlder_iff.2 h)
      rcases List.mem_cons.1 hb with rfl | hb
      · exact ih hother (List.mem_cons_self ..)
      rcases List.mem_cons.1 hb with rfl | hb
      · rcases ih hother (List.mem_cons_self ..) with heq | hbefore
        · exact .inr (heq.symm ▸ hlater)
        · exact .inr (hbefore.trans hlater)
      · exact ih hother (List.mem_cons_of_mem _ hb)

end Orphan

namespace OrphanPool

variable {p q : OrphanPool} {o : Orphan} {block : Block} {hash parent : Digest} {now : Instant}
  {call : OrphanCall}

/-! ## Order -/

/-- The orphans have digests of their own and stand in the order of their turns, and there is
room for them. -/
structure Ordered (p : OrphanPool) : Prop where
  named : p.Named
  nodup : (p.held.map (·.hash)).Nodup
  ascending : p.held.Pairwise fun a b => a.turn < b.turn
  turns : ∀ o ∈ p.held, o.turn < p.turns
  size_le : p.size ≤ p.capacity

theorem ordered_ofLimits (capacity : Nat) (lifetime : Int) :
    (ofLimits capacity lifetime).Ordered where
  named := named_ofLimits capacity lifetime
  nodup := .nil
  ascending := .nil
  turns := fun _ h => nomatch h
  size_le := Nat.zero_le _

/-- Whatever is dropped, the others stay in order. -/
theorem Ordered.of_sublist (hp : p.Ordered) (hheld : q.held.Sublist p.held)
    (hturns : q.turns = p.turns) (hcapacity : q.capacity = p.capacity) : q.Ordered where
  named := fun o ho => hp.named o (hheld.subset ho)
  nodup := hp.nodup.sublist (hheld.map _)
  ascending := hp.ascending.sublist hheld
  turns := fun o ho => hturns ▸ hp.turns o (hheld.subset ho)
  size_le := hcapacity ▸ hheld.length_le.trans hp.size_le

theorem Ordered.remove (hp : p.Ordered) (hash : Digest) : (p.remove hash).Ordered :=
  hp.of_sublist List.filter_sublist rfl rfl

theorem Ordered.dropExpired (hp : p.Ordered) (now : Instant) : (p.dropExpired now).Ordered :=
  hp.of_sublist (held_dropExpired p now) rfl rfl

theorem Ordered.takeChildren (hp : p.Ordered) (parent : Digest) (now : Instant) :
    (p.takeChildren parent now).2.Ordered :=
  hp.of_sublist (held_takeChildren p parent now ▸ List.filter_sublist) rfl rfl

theorem Ordered.eq_of_hash_eq (hp : p.Ordered) {a b : Orphan} (ha : a ∈ p.held) (hb : b ∈ p.held)
    (h : a.hash = b.hash) : a = b :=
  List.inj_on_of_nodup_map hp.nodup ha hb h

theorem hash_of_find? (h : p.find? hash = some o) : o.hash = hash := by
  have hfound := List.find?_some h
  exact of_decide_eq_true hfound

/-- An orphan is found under its digest. -/
theorem Ordered.find?_eq_some_iff (hp : p.Ordered) :
    p.find? hash = some o ↔ o ∈ p.held ∧ o.hash = hash := by
  constructor
  · exact fun h => ⟨List.mem_of_find?_eq_some h, hash_of_find? h⟩
  · rintro ⟨ho, rfl⟩
    have hsome : (p.find? o.hash).isSome :=
      List.find?_isSome.2 ⟨o, ho, decide_eq_true rfl⟩
    obtain ⟨o', ho'⟩ := Option.isSome_iff_exists.1 hsome
    rw [ho', hp.eq_of_hash_eq (List.mem_of_find?_eq_some ho') ho (hash_of_find? ho')]

/-! ## Making room -/

/-- The orphan that gives way comes before all others. -/
theorem Ordered.oldest?_before (hp : p.Ordered) (h : p.oldest? = some o) {b : Orphan}
    (hb : b ∈ p.held) : o = b ∨ o.Before b := by
  have hturns := hp.ascending.imp fun h => Nat.ne_of_lt h
  rw [oldest?] at h
  split at h
  · cases h
  · next o' os heq =>
    obtain rfl := Option.some.inj h
    rw [heq] at hturns hb
    exact Orphan.foldl_older_before hturns hb

theorem mem_of_oldest? (h : p.oldest? = some o) : o ∈ p.held := by
  rw [oldest?] at h
  split at h
  · cases h
  · next o' os heq =>
    obtain rfl := Option.some.inj h
    exact heq ▸ foldl_mem (fun a b => by split <;> simp) o' os

theorem exists_oldest? (h : 0 < p.size) : ∃ o, p.oldest? = some o := by
  rw [oldest?]
  split
  · next heq => rw [size, heq] at h; exact absurd h (Nat.lt_irrefl 0)
  · exact ⟨_, rfl⟩

/-- Where the pool is full, one orphan gives way, and it is the oldest. -/
theorem makeRoom_of_full (h : p.size = p.capacity) :
    ∃ o, p.oldest? = some o ∧ p.makeRoom = p.remove o.hash := by
  obtain ⟨o, ho⟩ := exists_oldest? (h ▸ p.capacity_pos)
  have hone : p.size + 1 - p.capacity = 1 := by omega
  refine ⟨o, ho, ?_⟩
  rw [makeRoom, hone]
  change p.dropOldest = _
  rw [dropOldest, ho]

theorem size_remove_lt (ho : o ∈ p.held) : (p.remove o.hash).size < p.size :=
  length_without_lt ho rfl

/-- At most one orphan makes room. -/
theorem Ordered.makeRoom_cases (hp : p.Ordered) :
    (p.size < p.capacity ∧ p.makeRoom = p) ∨
      ∃ o, p.size = p.capacity ∧ p.oldest? = some o ∧ p.makeRoom = p.remove o.hash := by
  rcases Nat.lt_or_eq_of_le hp.size_le with hlt | heq
  · exact .inl ⟨hlt, makeRoom_of_lt hlt⟩
  · obtain ⟨o, ho, hroom⟩ := makeRoom_of_full heq
    exact .inr ⟨o, heq, ho, hroom⟩

theorem Ordered.makeRoom (hp : p.Ordered) : p.makeRoom.Ordered := by
  rcases hp.makeRoom_cases with ⟨-, h⟩ | ⟨o, -, -, h⟩
  · rwa [h]
  · rw [h]
    exact hp.remove o.hash

/-- Then there is room for one more. -/
theorem Ordered.size_makeRoom_lt (hp : p.Ordered) : p.makeRoom.size < p.capacity := by
  rcases hp.makeRoom_cases with ⟨hlt, h⟩ | ⟨o, hfull, ho, h⟩
  · rwa [h]
  · rw [h, ← hfull]
    exact size_remove_lt (mem_of_oldest? ho)

theorem Ordered.makeRoom_fields (hp : p.Ordered) :
    p.makeRoom.turns = p.turns ∧ p.makeRoom.capacity = p.capacity ∧
      p.makeRoom.lifetime = p.lifetime := by
  rcases hp.makeRoom_cases with ⟨-, h⟩ | ⟨o, -, -, h⟩
  · rw [h]
    exact ⟨rfl, rfl, rfl⟩
  · rw [h]
    exact ⟨rfl, rfl, rfl⟩

theorem mem_remove {o : Orphan} : o ∈ (p.remove hash).held ↔ o ∈ p.held ∧ o.hash ≠ hash := by
  rw [remove, without, List.mem_filter, decide_eq_true_iff]

/-! ## A call -/

/-- The ways in which an orphan leaves a pool. -/
inductive Leaves (p : OrphanPool) (o : Orphan) : OrphanCall → Prop where
  /-- it is removed -/
  | removed : Leaves p o (.remove o.hash)
  /-- the children of its parent are taken -/
  | taken (now : Instant) : Leaves p o (.takeChildren o.parent now)
  /-- a block is added when it has expired -/
  | expired (block : Block) {now : Instant} (hexpired : o.expiry ≤ now) : Leaves p o (.add block now)
  /-- a block is added when the pool is full of others that have not expired either, and it is
  the first of them to give way -/
  | evicted (block : Block) {now : Instant} (hlasts : now < o.expiry)
      (hfull : p.capacity ≤ (p.dropExpired now).size)
      (holdest : ∀ b ∈ (p.dropExpired now).held, b = o ∨ o.Before b) : Leaves p o (.add block now)

/-- What a call brings in. -/
def entering (p : OrphanPool) : OrphanCall → List Orphan
  | .add block now => [⟨block.hash, block, now.addSeconds p.lifetime, p.turns⟩]
  | .remove _ | .takeChildren .. => []

/-- A call adds nothing that is held. -/
def IsNew (p : OrphanPool) : OrphanCall → Prop
  | .add block _ => p.contains block.hash = false
  | .remove _ | .takeChildren .. => True

theorem contains_eq_false_iff : p.contains hash = false ↔ ∀ o ∈ p.held, o.hash ≠ hash := by
  rw [contains, Option.isSome_eq_false_iff, Option.isNone_iff_eq_none, find?, List.find?_eq_none]
  exact forall₂_congr fun o _ => by rw [decide_eq_true_iff]

/-- Adding keeps those that have not expired, but for the oldest where the pool is full. -/
theorem Ordered.mem_kept_iff (hp : p.Ordered) (block : Block) (ho : o ∈ p.held) :
    o ∈ (p.dropExpired now).makeRoom.held ↔ ¬ p.Leaves o (.add block now) := by
  have hq := hp.dropExpired now
  have hmem : o ∈ (p.dropExpired now).held ↔ now < o.expiry := by
    rw [OrphanPool.dropExpired, List.mem_filter, Bool.not_eq_true', Orphan.isExpired_iff]
    exact and_iff_right ho
  constructor
  · intro hkept hleaves
    cases hleaves with
    | expired _ hexpired =>
      exact Instant.not_lt.2 hexpired (hmem.1 ((held_makeRoom _).subset hkept))
    | evicted _ hlasts hfull holdest =>
      rcases hq.makeRoom_cases with ⟨hlt, -⟩ | ⟨o', -, ho', hroom⟩
      · exact absurd hlt hfull.not_gt
      · rw [hroom, mem_remove] at hkept
        -- both come first, so they are the same
        rcases holdest o' (mem_of_oldest? ho') with rfl | hbefore
        · exact hkept.2 rfl
        · rcases hq.oldest?_before ho' hkept.1 with rfl | hbefore'
          · exact hkept.2 rfl
          · exact hbefore.asymm hbefore'
  · intro hstays
    have hlasts : now < o.expiry := Instant.not_le.1 fun h => hstays (.expired block h)
    rcases hq.makeRoom_cases with ⟨-, hroom⟩ | ⟨o', hfull, ho', hroom⟩
    · rw [hroom]
      exact hmem.2 hlasts
    · rw [hroom, mem_remove]
      refine ⟨hmem.2 hlasts, fun heq => hstays ?_⟩
      obtain rfl : o = o' := hq.eq_of_hash_eq (hmem.2 hlasts) (mem_of_oldest? ho') heq
      exact .evicted block hlasts hfull.ge fun b hb => (hq.oldest?_before ho' hb).imp_left Eq.symm

open scoped Classical in
/-- What stays keeps its order, and what comes in follows. -/
theorem Ordered.held_perform (hp : p.Ordered) (hnew : p.IsNew call) :
    (p.perform call).2.held =
      p.held.filter (fun o => ¬ p.Leaves o call) ++ p.entering call := by
  cases call with
  | add block now =>
    have hsub : (p.dropExpired now).makeRoom.held.Sublist p.held :=
      (held_makeRoom _).trans (held_dropExpired p now)
    obtain ⟨hturns, -, hlifetime⟩ := (hp.dropExpired now).makeRoom_fields
    refine (held_add hnew).trans (congrArg₂ _ ?_ ?_)
    · -- both are in the order of the turns
      refine List.Pairwise.eq_of_mem_iff (hp.ascending.sublist hsub) (hp.ascending.filter _)
        fun o => ?_
      rw [List.mem_filter, decide_eq_true_iff]
      exact ⟨fun ho => ⟨hsub.subset ho, (hp.mem_kept_iff block (hsub.subset ho)).1 ho⟩,
        fun ho => (hp.mem_kept_iff block ho.1).2 ho.2⟩
    · rw [hturns, hlifetime]
      rfl
  | remove hash =>
    rw [entering, List.append_nil]
    refine List.filter_congr fun o _ => decide_eq_decide.2 (not_congr ⟨?_, ?_⟩)
    · rintro rfl
      exact .removed
    · rintro ⟨⟩
      rfl
  | takeChildren parent now =>
    rw [entering, List.append_nil]
    refine (held_takeChildren p parent now).trans (List.filter_congr fun o _ => ?_)
    rw [← decide_not]
    refine decide_eq_decide.2 (not_congr ⟨?_, ?_⟩)
    · rintro rfl
      exact .taken now
    · rintro ⟨⟩
      rfl

theorem Ordered.add (hp : p.Ordered) (hnew : p.contains block.hash = false) (now : Instant) :
    (p.add block now).Ordered := by
  have hq := (hp.dropExpired now).makeRoom
  have hroom : ((p.dropExpired now).makeRoom).size < p.capacity :=
    (hp.dropExpired now).size_makeRoom_lt
  have hsub := (held_makeRoom _).trans (held_dropExpired p now)
  have hcapacity := (hp.dropExpired now).makeRoom_fields.2.1
  have hheld : (p.add block now).held = _ := held_add hnew
  constructor
  · exact hp.named.add
  · rw [hheld, List.map_append, List.nodup_append]
    refine ⟨hq.nodup, List.nodup_singleton _, fun hash hhash hash' hhash' => ?_⟩
    obtain ⟨o, ho, rfl⟩ := List.mem_map.1 hhash
    rw [List.mem_singleton.1 hhash']
    exact contains_eq_false_iff.1 hnew o (hsub.subset ho)
  · rw [hheld, List.pairwise_append]
    refine ⟨hq.ascending, List.pairwise_singleton _ _, fun o ho o' ho' => ?_⟩
    rw [List.mem_singleton.1 ho']
    exact hq.turns o ho
  · intro o ho
    rw [hheld] at ho
    rcases List.mem_append.1 ho with ho | ho
    · exact (hq.turns o ho).trans (Nat.lt_succ_self _)
    · rw [List.mem_singleton.1 ho]
      exact Nat.lt_succ_self _
  · rw [size, hheld, List.length_append]
    exact hcapacity.symm ▸ hroom

/-- Every call leaves the pool in order. -/
theorem Ordered.perform (hp : p.Ordered) (hnew : p.IsNew call) : (p.perform call).2.Ordered :=
  match call with
  | .add _ now => hp.add hnew now
  | .remove hash => hp.remove hash
  | .takeChildren parent now => hp.takeChildren parent now

/-- No call changes the limits. -/
theorem Ordered.perform_limits (hp : p.Ordered) (call : OrphanCall) :
    (p.perform call).2.capacity = p.capacity ∧ (p.perform call).2.lifetime = p.lifetime :=
  match call with
  | .add _ now => (hp.dropExpired now).makeRoom_fields.2
  | .remove _ | .takeChildren .. => ⟨rfl, rfl⟩

end OrphanPool

end PermissionedLedger
