import Mathlib
import PermissionedLedger.Proofs.Chain.OrphanOrder
import PermissionedLedger.Proofs.Store.Batches

/-!
# Two tables in step

An index and a pool of orphans in which the same calls were made hold the same orphans
(`OrphanIndex.Indexes`): the table by digest has every orphan under its digest, and the table by
parent lists the digests of the children of every parent that has some, in the order of the pool.
Every call keeps them in step and is answered alike (`Indexes.perform`).

So whatever calls were made, both keep what they should and nothing else
(`orphans_kept_exactly`).
-/

namespace PermissionedLedger

open Time (Instant)

namespace OrphanIndex

variable {x : OrphanIndex} {p : OrphanPool} {o : Orphan} {block : Block} {hash parent : Digest}
  {now : Instant}

/-! ## What is in the tables -/

/-- An entry of the table by parent: no list of digests is empty. -/
def listed : List Digest → Option (List Digest)
  | [] => none
  | hashes => some hashes

@[simp] theorem getD_listed (hashes : List Digest) : (listed hashes).getD [] = hashes := by
  cases hashes <;> rfl

theorem listed_append_singleton (hashes : List Digest) (hash : Digest) :
    listed (hashes ++ [hash]) = some (hashes ++ [hash]) := by
  cases hashes <;> rfl

/-- The digests of the orphans that wait for a parent. -/
def childrenOf (held : List Orphan) (parent : Digest) : List Digest :=
  (held.filter (·.parent = parent)).map (·.hash)

theorem mem_childrenOf {held : List Orphan} :
    hash ∈ childrenOf held parent ↔ ∃ o ∈ held, o.parent = parent ∧ o.hash = hash := by
  simp only [childrenOf, List.mem_map, List.mem_filter, decide_eq_true_eq, and_assoc]

/-- The tables hold the orphans of a pool. -/
structure Indexes (x : OrphanIndex) (p : OrphanPool) : Prop where
  orphans : ∀ hash, x.orphans[hash]? = p.find? hash
  byParent : ∀ parent, x.byParent[parent]? = listed (childrenOf p.held parent)
  capacity : x.capacity = p.capacity
  lifetime : x.lifetime = p.lifetime
  turns : x.turns = p.turns

theorem indexes_ofLimits (capacity : Nat) (lifetime : Int) :
    (ofLimits capacity lifetime).Indexes (.ofLimits capacity lifetime) where
  orphans := fun _ => Std.ExtTreeMap.getElem?_empty
  byParent := fun _ => Std.ExtTreeMap.getElem?_empty
  capacity := rfl
  lifetime := rfl
  turns := rfl

theorem Indexes.contains (hx : x.Indexes p) (hash : Digest) : x.contains hash = p.contains hash := by
  rw [OrphanIndex.contains, OrphanPool.contains, Std.ExtTreeMap.contains_eq_isSome_getElem?,
    hx.orphans]

/-- The entries of the table are the orphans with their digests. -/
theorem Indexes.mem_toList_iff (hx : x.Indexes p) (hp : p.Ordered) {e : Digest × Orphan} :
    e ∈ x.orphans.toList ↔ e.2 ∈ p.held ∧ e.2.hash = e.1 := by
  rw [← hp.find?_eq_some_iff, ← hx.orphans]
  exact Std.ExtTreeMap.mem_toList_iff_getElem?_eq_some

theorem Indexes.toList_perm (hx : x.Indexes p) (hp : p.Ordered) :
    x.orphans.toList.Perm (p.held.map fun o => (o.hash, o)) := by
  have hheld : p.held.Nodup := List.Nodup.of_map _ hp.nodup
  refine (List.perm_ext_iff_of_nodup (nodup_toList _) (hheld.map fun _ _ h => congrArg Prod.snd h)).2
    fun e => ?_
  rw [hx.mem_toList_iff hp, List.mem_map]
  constructor
  · rintro ⟨ho, heq⟩
    exact ⟨e.2, ho, Prod.ext heq rfl⟩
  · rintro ⟨o, ho, rfl⟩
    exact ⟨ho, rfl⟩

theorem Indexes.size (hx : x.Indexes p) (hp : p.Ordered) : x.size = p.size := by
  rw [OrphanIndex.size, ← Std.ExtTreeMap.length_toList, (hx.toList_perm hp).length_eq,
    List.length_map, OrphanPool.size]

/-! ## Removing -/

theorem getElem?_dropSibling (byParent : Std.ExtTreeMap Digest (List Digest))
    (parent hash q : Digest) :
    (dropSibling byParent parent hash)[q]? =
      if q = parent then listed ((byParent[q]?.getD []).filter (· ≠ hash)) else byParent[q]? := by
  rw [dropSibling]
  split
  · next hnone =>
    split
    · next heq =>
      rw [heq, hnone]
      rfl
    · rfl
  · next siblings hsome =>
    by_cases heq : q = parent
    · rw [if_pos heq, heq, hsome, Option.getD_some]
      dsimp only
      rcases hothers : siblings.filter (· ≠ hash) with _ | ⟨sibling, others⟩
      · rw [if_pos rfl, getElem?_erase_eq, if_pos rfl]
        rfl
      · rw [if_neg (List.cons_ne_nil _ _), getElem?_insert_eq, if_pos rfl]
        rfl
    · rw [if_neg heq]
      dsimp only
      split
      · rw [getElem?_erase_eq, if_neg heq]
      · rw [getElem?_insert_eq, if_neg heq]

theorem childrenOf_without (held : List Orphan) (parent hash : Digest) :
    childrenOf (OrphanPool.without hash held) parent =
      (childrenOf held parent).filter (· ≠ hash) := by
  rw [childrenOf, childrenOf, OrphanPool.without, List.filter_map, List.filter_filter,
    List.filter_filter]
  exact congrArg _ (List.filter_congr fun o _ => Bool.and_comm ..)

theorem find?_remove (hp : p.Ordered) (hash key : Digest) :
    (p.remove hash).find? key = if key = hash then none else p.find? key := by
  refine Option.ext fun o => ?_
  rw [(hp.remove hash).find?_eq_some_iff, OrphanPool.mem_remove]
  split
  · next heq =>
    refine iff_of_false ?_ (Option.some_ne_none o).symm
    rintro ⟨⟨-, hne⟩, heq'⟩
    exact hne (heq'.trans heq)
  · next hne =>
    rw [hp.find?_eq_some_iff, and_assoc]
    refine and_congr_right fun _ => and_iff_right_of_imp ?_
    rintro rfl
    exact hne

theorem remove_of_find?_eq_none (h : p.find? hash = none) : p.remove hash = p := by
  have hheld : OrphanPool.without hash p.held = p.held :=
    List.filter_eq_self.2 fun o ho => by
      have hne := List.find?_eq_none.1 h o ho
      simpa using hne
  rw [OrphanPool.remove, hheld]

/-- Removing hands out what was found, and keeps the tables in step. -/
theorem Indexes.remove (hx : x.Indexes p) (hp : p.Ordered) (hash : Digest) :
    (x.remove hash).1 = (p.find? hash).map (·.block) ∧
      (x.remove hash).2.Indexes (p.remove hash) := by
  rw [OrphanIndex.remove, hx.orphans hash]
  rcases hfind : p.find? hash with _ | o
  · rw [remove_of_find?_eq_none hfind]
    exact ⟨rfl, hx⟩
  refine ⟨rfl, ⟨fun key => ?_, fun q => ?_, hx.capacity, hx.lifetime, hx.turns⟩⟩
  · rw [getElem?_erase_eq, find?_remove hp, hx.orphans]
  · have hentry : x.byParent[q]?.getD [] = childrenOf p.held q := by
      rw [hx.byParent, getD_listed]
    refine (getElem?_dropSibling x.byParent o.parent hash q).trans ?_
    rw [hentry, hx.byParent, OrphanPool.remove, childrenOf_without]
    split
    · rfl
    · next hq =>
      -- the orphan is not among the children of another parent
      refine congrArg listed (List.filter_eq_self.2 fun key hkey => ?_).symm
      obtain ⟨o', ho', rfl, rfl⟩ := mem_childrenOf.1 hkey
      obtain ⟨ho, hhash⟩ := hp.find?_eq_some_iff.1 hfind
      refine decide_eq_true fun heq => hq ?_
      rw [hp.eq_of_hash_eq ho' ho (heq.trans hhash.symm)]

/-! ## Dropping what has expired -/

/-- The pool without several blocks. -/
theorem Indexes.removeAll (hx : x.Indexes p) (hp : p.Ordered) (hashes : List Digest) :
    (x.removeAll hashes).Indexes
      { p with held := p.held.filter fun o => decide (o.hash ∉ hashes) } := by
  induction hashes generalizing x p with
  | nil =>
    simpa [OrphanIndex.removeAll] using hx
  | cons hash hashes ih =>
    have hrest := ih (hx.remove hp hash).2 (hp.remove hash)
    have hheld : (p.held.filter fun o => decide (o.hash ∉ hash :: hashes)) =
        (p.remove hash).held.filter fun o => decide (o.hash ∉ hashes) := by
      rw [OrphanPool.remove, OrphanPool.without, List.filter_filter]
      refine List.filter_congr fun o _ => ?_
      rw [← Bool.decide_and, decide_eq_decide, List.mem_cons, not_or, and_comm]
    rw [hheld]
    exact hrest

theorem Indexes.dropExpired (hx : x.Indexes p) (hp : p.Ordered) (now : Instant) :
    (x.dropExpired now).Indexes (p.dropExpired now) := by
  have hmem : ∀ o ∈ p.held,
      o.hash ∈ (x.orphans.toList.filter fun e => e.2.isExpired now).map (·.1) ↔
        o.isExpired now = true := by
    intro o ho
    rw [List.mem_map]
    constructor
    · rintro ⟨e, he, heq⟩
      obtain ⟨he, hexpired⟩ := List.mem_filter.1 he
      obtain ⟨he, hhash⟩ := (hx.mem_toList_iff hp).1 he
      rwa [← hp.eq_of_hash_eq he ho (hhash.trans heq)]
    · intro hexpired
      exact ⟨(o.hash, o),
        List.mem_filter.2 ⟨(hx.mem_toList_iff hp).2 ⟨ho, rfl⟩, hexpired⟩, rfl⟩
  have hheld : p.dropExpired now = { p with held := p.held.filter fun o => decide (o.hash ∉
      (x.orphans.toList.filter fun e => e.2.isExpired now).map (·.1)) } := by
    refine congrArg (fun held => { p with held }) (List.filter_congr fun o ho => ?_)
    rw [Bool.eq_iff_iff, decide_eq_true_iff, hmem o ho, Bool.not_eq_true, Bool.not_eq_true']
  rw [hheld]
  exact hx.removeAll hp _

/-! ## Making room -/

theorem snd_oldestOf (e : Digest × Orphan) (es : List (Digest × Orphan)) :
    (oldestOf e es).2 = (es.map (·.2)).foldl
      (fun oldest o => if o.isOlder oldest then o else oldest) e.2 := by
  rw [List.foldl_map]
  exact (List.foldl_hom Prod.snd fun e e' => (apply_ite Prod.snd _ e' e).symm).symm

/-- Both find the same orphan to be the oldest, in whatever order the table is searched. -/
theorem Indexes.oldest? (hx : x.Indexes p) (hp : p.Ordered) :
    x.oldest? = p.oldest?.map (·.hash) := by
  have hperm := hx.toList_perm hp
  rw [OrphanIndex.oldest?]
  split
  · next hnil =>
    rw [hnil, List.nil_perm, List.map_eq_nil_iff] at hperm
    rw [OrphanPool.oldest?, hperm]
    rfl
  · next e es hcons =>
    rw [hcons] at hperm
    have hheld : ((e :: es).map (·.2)).Perm p.held := by
      have hmap := hperm.map (·.2)
      rwa [List.map_map, List.map_id''] at hmap
      exact fun _ => rfl
    have hturns : ((e :: es).map (·.2)).Pairwise fun a b => a.turn ≠ b.turn :=
      (hp.ascending.imp fun h => Nat.ne_of_lt h).perm hheld.symm fun h => h.symm
    have hmem : oldestOf e es ∈ x.orphans.toList := hcons ▸ mem_oldestOf e es
    obtain ⟨hmem, hhash⟩ := (hx.mem_toList_iff hp).1 hmem
    obtain ⟨o, ho⟩ := OrphanPool.exists_oldest? (List.length_pos_of_mem hmem)
    have hsame : (oldestOf e es).2 = o := by
      have ho' : o ∈ (e :: es).map (·.2) := hheld.mem_iff.2 (OrphanPool.mem_of_oldest? ho)
      rw [List.map_cons] at hturns ho'
      rw [snd_oldestOf] at hmem ⊢
      -- each comes first of all that are held
      rcases Orphan.foldl_older_before hturns ho' with heq | hbefore
      · exact heq
      · rcases hp.oldest?_before ho hmem with heq | hbefore'
        · exact heq.symm
        · exact absurd hbefore' hbefore.asymm
    rw [ho, Option.map_some, ← hsame, hhash]

/-- The loop ends after one orphan has given way. -/
theorem Indexes.makeRoom (hx : x.Indexes p) (hp : p.Ordered) :
    x.makeRoom.Indexes p.makeRoom := by
  have hsize : x.orphans.size = p.size := hx.size hp
  rcases hp.makeRoom_cases with ⟨hlt, hroom⟩ | ⟨o, hfull, ho, hroom⟩
  · rwa [hroom, OrphanIndex.makeRoom, if_neg (by rw [hsize, hx.capacity]; exact hlt.not_ge)]
  · have hrest := (hx.remove hp o.hash).2
    have hsmall : (x.remove o.hash).2.orphans.size < (x.remove o.hash).2.capacity := by
      have hsize' : (x.remove o.hash).2.orphans.size = _ := hrest.size (hp.remove o.hash)
      rw [hsize', hrest.capacity]
      exact hfull ▸ OrphanPool.size_remove_lt (OrphanPool.mem_of_oldest? ho)
    have holdest : x.oldest? = some o.hash := by rw [hx.oldest? hp, ho]; rfl
    rw [hroom, OrphanIndex.makeRoom, if_pos (by rw [hsize, hx.capacity]; exact hfull.ge)]
    split
    · next hash heq =>
      obtain rfl := Option.some.inj (heq.symm.trans holdest)
      rwa [OrphanIndex.makeRoom, if_neg hsmall.not_ge]
    · next heq => exact absurd (heq.symm.trans holdest) (Option.some_ne_none _).symm

/-! ## Adding -/

theorem childrenOf_append_singleton (held : List Orphan) (o : Orphan) (q : Digest) :
    childrenOf (held ++ [o]) q =
      if q = o.parent then childrenOf held q ++ [o.hash] else childrenOf held q := by
  rw [childrenOf, List.filter_append, List.map_append, ← childrenOf]
  rw [List.filter_cons, List.filter_nil]
  by_cases heq : q = o.parent
  · rw [if_pos heq, if_pos (decide_eq_true heq.symm)]
    rfl
  · rw [if_neg heq, if_neg fun h => heq (of_decide_eq_true h).symm]
    exact List.append_nil _

theorem Indexes.add (hx : x.Indexes p) (hp : p.Ordered) (hnew : p.contains block.hash = false)
    (now : Instant) : (x.add block now).Indexes (p.add block now) := by
  have hkept := (hp.dropExpired now).makeRoom
  have hroom := (hx.dropExpired hp now).makeRoom (hp.dropExpired now)
  have hheld : (p.add block now).held = _ := OrphanPool.held_add hnew
  have hunheld : ∀ o ∈ (p.dropExpired now).makeRoom.held, o.hash ≠ block.hash := fun o ho =>
    OrphanPool.contains_eq_false_iff.1 hnew o
      (((OrphanPool.held_makeRoom _).trans (OrphanPool.held_dropExpired p now)).subset ho)
  refine ⟨fun key => ?_, fun q => ?_, hroom.capacity, hroom.lifetime, congrArg (· + 1) hroom.turns⟩
  · rw [OrphanPool.find?, hheld, List.find?_append, ← OrphanPool.find?, ← hroom.orphans]
    refine (getElem?_insert_eq ..).trans ?_
    split
    · next heq =>
      have hnone : (p.dropExpired now).makeRoom.find? key = none :=
        List.find?_eq_none.2 fun o ho => by
          rw [heq, decide_eq_true_iff]
          exact hunheld o ho
      rw [hroom.orphans, hnone, Option.none_or, List.find?_singleton, if_pos (decide_eq_true heq.symm),
        hroom.lifetime, hroom.turns]
    · next hne =>
      rw [List.find?_singleton, if_neg (by simpa using Ne.symm hne), Option.or_none]
  · rw [hheld, childrenOf_append_singleton]
    refine (getElem?_insert_eq ..).trans ?_
    rw [hroom.byParent, hroom.byParent, getD_listed]
    by_cases heq : q = block.header.previous
    · refine (if_pos heq).trans (Eq.trans ?_ (congrArg listed (if_pos heq)).symm)
      rw [heq]
      exact (listed_append_singleton _ _).symm
    · exact (if_neg heq).trans (congrArg listed (if_neg heq)).symm

/-! ## Taking children -/

/-- The orphans of a list are taken out of a table that has them. -/
theorem takeAll_eq (now : Instant) (orphans : Std.ExtTreeMap Digest Orphan) {os : List Orphan}
    (hnodup : (os.map (·.hash)).Nodup) (hin : ∀ o ∈ os, orphans[o.hash]? = some o) :
    (takeAll now orphans (os.map (·.hash))).1 =
        (os.filter (!·.isExpired now)).map (·.block) ∧
      ∀ key, (takeAll now orphans (os.map (·.hash))).2[key]? =
        if key ∈ os.map (·.hash) then none else orphans[key]? := by
  induction os generalizing orphans with
  | nil => exact ⟨rfl, fun key => (if_neg List.not_mem_nil).symm⟩
  | cons o os ih =>
    obtain ⟨hfirst, hrest⟩ := List.nodup_cons.1 hnodup
    have hothers : ∀ o' ∈ os, (orphans.erase o.hash)[o'.hash]? = some o' := by
      intro o' ho'
      have hne : o'.hash ≠ o.hash := fun heq => hfirst (List.mem_map.2 ⟨o', ho', heq⟩)
      rw [getElem?_erase_eq, if_neg hne]
      exact hin o' (List.mem_cons_of_mem _ ho')
    obtain ⟨hblocks, horphans⟩ := ih (orphans.erase o.hash) hrest hothers
    rw [List.map_cons, takeAll, hin o (List.mem_cons_self ..)]
    constructor
    · dsimp only
      rw [hblocks]
      cases hexpired : o.isExpired now
      · rw [List.filter_cons_of_pos (by rw [hexpired]; rfl)]
        rfl
      · rw [List.filter_cons_of_neg (by rw [hexpired]; exact Bool.false_ne_true)]
        rfl
    · intro key
      rw [horphans, getElem?_erase_eq]
      by_cases hkey : key ∈ os.map (·.hash)
      · rw [if_pos hkey, if_pos (List.mem_cons_of_mem _ hkey)]
      · rw [if_neg hkey]
        exact if_congr (by rw [List.mem_cons, or_iff_left hkey]) rfl rfl

/-- Nothing is listed as nothing to take. -/
theorem takeChildren_eq (x : OrphanIndex) (parent : Digest) (now : Instant) :
    ∃ byParent : Std.ExtTreeMap Digest (List Digest),
      (∀ q, byParent[q]? = if q = parent then none else x.byParent[q]?) ∧
        x.takeChildren parent now =
          ((takeAll now x.orphans (x.byParent[parent]?.getD [])).1,
            { x with
              orphans := (takeAll now x.orphans (x.byParent[parent]?.getD [])).2
              byParent }) := by
  rw [takeChildren]
  split
  · next hnone =>
    refine ⟨x.byParent, fun q => ?_, by rw [hnone]; rfl⟩
    split
    · next heq => rw [heq, hnone]
    · rfl
  · next children hsome =>
    exact ⟨x.byParent.erase parent, fun q => getElem?_erase_eq .., by rw [hsome]; rfl⟩

theorem childrenOf_others (held : List Orphan) (parent q : Digest) :
    childrenOf (held.filter fun o => !decide (o.parent = parent)) q =
      if q = parent then [] else childrenOf held q := by
  rw [childrenOf, List.filter_filter]
  split
  · next heq =>
    rw [List.map_eq_nil_iff, List.filter_eq_nil_iff]
    intro o _
    rw [heq, Bool.and_not_self]
    exact Bool.false_ne_true
  · next hne =>
    refine congrArg _ (List.filter_congr fun o _ => ?_)
    rw [Bool.and_eq_left_iff_imp, decide_eq_true_iff, Bool.not_eq_true', decide_eq_false_iff_not]
    rintro rfl
    exact hne

theorem find?_takeChildren (hp : p.Ordered) (parent : Digest) (now : Instant) (key : Digest) :
    (p.takeChildren parent now).2.find? key =
      if key ∈ childrenOf p.held parent then none else p.find? key := by
  refine Option.ext fun o => ?_
  rw [(hp.takeChildren parent now).find?_eq_some_iff, OrphanPool.held_takeChildren,
    List.mem_filter, Bool.not_eq_true', decide_eq_false_iff_not]
  split
  · next hchild =>
    refine iff_of_false ?_ (Option.some_ne_none o).symm
    rintro ⟨⟨ho, hparent⟩, rfl⟩
    obtain ⟨o', ho', hparent', heq⟩ := mem_childrenOf.1 hchild
    exact hparent (hp.eq_of_hash_eq ho' ho heq ▸ hparent')
  · next hother =>
    rw [hp.find?_eq_some_iff]
    constructor
    · exact fun h => ⟨h.1.1, h.2⟩
    · rintro ⟨ho, heq⟩
      exact ⟨⟨ho, fun hparent => hother (mem_childrenOf.2 ⟨o, ho, hparent, heq⟩)⟩, heq⟩

theorem Indexes.takeChildren (hx : x.Indexes p) (hp : p.Ordered) (parent : Digest)
    (now : Instant) : (x.takeChildren parent now).1 = (p.takeChildren parent now).1 ∧
      (x.takeChildren parent now).2.Indexes (p.takeChildren parent now).2 := by
  have hheld : (p.held.filter fun o => decide (o.parent = parent)).Sublist p.held :=
    List.filter_sublist
  obtain ⟨hblocks, horphans⟩ := takeAll_eq now x.orphans (hp.nodup.sublist (hheld.map _))
    fun o ho => (hx.orphans _).trans (hp.find?_eq_some_iff.2 ⟨hheld.subset ho, rfl⟩)
  obtain ⟨byParent, hbyParent, hx'⟩ := takeChildren_eq x parent now
  rw [hx.byParent, getD_listed] at hx'
  rw [hx']
  refine ⟨hblocks.trans ?_, ⟨fun key => ?_, fun q => ?_, hx.capacity, hx.lifetime, hx.turns⟩⟩
  · rw [OrphanPool.takeChildren, List.partition_eq_filter_filter]
  · rw [find?_takeChildren hp, ← hx.orphans]
    exact horphans key
  · rw [OrphanPool.held_takeChildren, childrenOf_others]
    refine (hbyParent q).trans ?_
    rw [hx.byParent, apply_ite listed]
    rfl

/-! ## Calls -/

variable {call : OrphanCall}

/-- Both answer a call alike, and stay in step. -/
theorem Indexes.perform (hx : x.Indexes p) (hp : p.Ordered) (hnew : p.IsNew call) :
    (x.perform call).1 = (p.perform call).1 ∧ (x.perform call).2.Indexes (p.perform call).2 :=
  match call with
  | .add _ now => ⟨rfl, hx.add hp hnew now⟩
  | .remove hash => (hx.remove hp hash).imp_left (congrArg Option.toList)
  | .takeChildren parent now => hx.takeChildren hp parent now

end OrphanIndex

/-- None of the calls adds a block that is held by then. -/
def OrphanPool.Admits (p : OrphanPool) : List OrphanCall → Prop
  | [] => True
  | call :: calls => p.IsNew call ∧ (p.perform call).2.Admits calls

instance (p : OrphanPool) : (call : OrphanCall) → Decidable (p.IsNew call)
  | .add block _ => inferInstanceAs (Decidable (p.contains block.hash = false))
  | .remove _ | .takeChildren .. => inferInstanceAs (Decidable True)

instance (p : OrphanPool) (calls : List OrphanCall) : Decidable (p.Admits calls) :=
  match calls with
  | [] => inferInstanceAs (Decidable True)
  | call :: calls =>
    have := instDecidableAdmits (p.perform call).2 calls
    inferInstanceAs (Decidable (p.IsNew call ∧ (p.perform call).2.Admits calls))

open scoped Classical in
/-- What an index and a pool of orphans hold, and what becomes of it. -/
structure KeptExactly (capacity : Nat) (lifetime : Int) (x : OrphanIndex) (p : OrphanPool) :
    Prop where
  /-- the tables hold the orphans of the pool and nothing else -/
  indexes : x.Indexes p
  /-- what is held is found under the digest of its block -/
  contains_iff (hash : Digest) : x.contains hash = true ↔ ∃ o ∈ p.held, o.block.hash = hash
  /-- the blocks are counted -/
  size_eq : x.size = p.held.length
  /-- there are never too many -/
  size_le : x.size ≤ max 1 capacity
  /-- they stand in the order of their turns -/
  ascending : p.held.Pairwise fun a b => a.turn < b.turn
  /-- the limits are those from the start -/
  limits : p.capacity = max 1 capacity ∧ p.lifetime = lifetime
  /-- a block is held once it is added -/
  added (block : Block) (now : Instant) (hnew : x.contains block.hash = false) :
    (x.add block now).contains block.hash = true
  /-- the children that are wanted are handed out in order -/
  taken (parent : Digest) (now : Instant) : (x.takeChildren parent now).1 =
    (p.held.filter fun o => o.block.header.previous = parent ∧ now < o.expiry).map (·.block)
  /-- no child is left -/
  left (parent : Digest) (now : Instant) (hash : Digest) (o : Orphan)
    (ho : (x.takeChildren parent now).2.orphans[hash]? = some o) :
    o.block.header.previous ≠ parent
  /-- what is removed was held -/
  removed (hash : Digest) (block : Block) :
    (x.remove hash).1 = some block ↔ ∃ o ∈ p.held, o.block.hash = hash ∧ o.block = block
  /-- a call changes both alike -/
  performed (call : OrphanCall) (hnew : p.IsNew call) :
    (x.perform call).1 = (p.perform call).1 ∧ (x.perform call).2.Indexes (p.perform call).2
  /-- what does not leave stays in order, and what comes in follows -/
  changes (call : OrphanCall) (hnew : p.IsNew call) :
    (p.perform call).2.held = p.held.filter (fun o => ¬ p.Leaves o call) ++ p.entering call

namespace OrphanIndex

variable {x : OrphanIndex} {p : OrphanPool} {capacity : Nat} {lifetime : Int}
  {calls : List OrphanCall}

theorem Indexes.keptExactly (hx : x.Indexes p) (hp : p.Ordered)
    (hlimits : p.capacity = max 1 capacity ∧ p.lifetime = lifetime) :
    KeptExactly capacity lifetime x p where
  indexes := hx
  contains_iff hash := by
    rw [hx.contains, OrphanPool.contains_iff hp.named, OrphanPool.blocks, List.map_map,
      List.mem_map]
    rfl
  size_eq := hx.size hp
  size_le := by
    rw [hx.size hp, ← hlimits.1]
    exact hp.size_le
  ascending := hp.ascending
  limits := hlimits
  added block now hnew := by
    rw [hx.contains] at hnew
    rw [(hx.add hp hnew now).contains]
    exact OrphanPool.contains_add hnew now
  taken parent now := by
    rw [(hx.takeChildren hp parent now).1, OrphanPool.takeChildren,
      List.partition_eq_filter_filter]
    refine congrArg (List.map _) ?_
    rw [List.filter_filter]
    refine List.filter_congr fun o _ => ?_
    rw [Bool.eq_iff_iff, Bool.and_eq_true, decide_eq_true_iff, decide_eq_true_iff,
      Bool.not_eq_true', Orphan.isExpired_iff, and_comm]
    rfl
  left parent now hash o ho := by
    rw [(hx.takeChildren hp parent now).2.orphans] at ho
    have hmem := List.mem_of_find?_eq_some ho
    rw [OrphanPool.held_takeChildren, List.mem_filter, Bool.not_eq_true',
      decide_eq_false_iff_not] at hmem
    exact hmem.2
  removed hash block := by
    rw [(hx.remove hp hash).1, Option.map_eq_some_iff]
    refine exists_congr fun o => ?_
    rw [hp.find?_eq_some_iff, and_assoc]
    exact and_congr_right fun ho => by rw [hp.named o ho]
  performed _ hnew := hx.perform hp hnew
  changes _ hnew := hp.held_perform hnew

/-- Whatever the calls are, both answer alike and stay in step. -/
theorem Indexes.performAll (hx : x.Indexes p) (hp : p.Ordered) (hnew : p.Admits calls) :
    (OrphanCall.performAll OrphanIndex.perform x calls).1 =
        (OrphanCall.performAll OrphanPool.perform p calls).1 ∧
      (OrphanCall.performAll OrphanIndex.perform x calls).2.Indexes
        (OrphanCall.performAll OrphanPool.perform p calls).2 ∧
      (OrphanCall.performAll OrphanPool.perform p calls).2.Ordered ∧
      (OrphanCall.performAll OrphanPool.perform p calls).2.capacity = p.capacity ∧
      (OrphanCall.performAll OrphanPool.perform p calls).2.lifetime = p.lifetime := by
  induction calls generalizing x p with
  | nil => exact ⟨rfl, hx, hp, rfl, rfl⟩
  | cons call calls ih =>
    obtain ⟨hcall, hcalls⟩ := hnew
    obtain ⟨hanswer, hnext⟩ := hx.perform hp hcall
    obtain ⟨hanswers, hlast, hordered, hcapacity, hlifetime⟩ :=
      ih hnext (hp.perform hcall) hcalls
    obtain ⟨hcapacity', hlifetime'⟩ := hp.perform_limits call
    exact ⟨congrArg₂ _ hanswer hanswers, hlast, hordered, hcapacity.trans hcapacity',
      hlifetime.trans hlifetime'⟩

end OrphanIndex

/-- Whatever calls are made of an empty index and an empty pool, the answers are the same, and in
the end both hold what they should. -/
theorem orphans_kept_exactly (capacity : Nat) (lifetime : Int) (calls : List OrphanCall)
    (hnew : (OrphanPool.ofLimits capacity lifetime).Admits calls) :
    (OrphanCall.performAll OrphanIndex.perform (.ofLimits capacity lifetime) calls).1 =
        (OrphanCall.performAll OrphanPool.perform (.ofLimits capacity lifetime) calls).1 ∧
      KeptExactly capacity lifetime
        (OrphanCall.performAll OrphanIndex.perform (.ofLimits capacity lifetime) calls).2
        (OrphanCall.performAll OrphanPool.perform (.ofLimits capacity lifetime) calls).2 := by
  obtain ⟨hanswers, hx, hp, hcapacity, hlifetime⟩ :=
    (OrphanIndex.indexes_ofLimits capacity lifetime).performAll
      (OrphanPool.ordered_ofLimits capacity lifetime) hnew
  exact ⟨hanswers, hx.keptExactly hp ⟨hcapacity.trans (max_comm ..), hlifetime⟩⟩

/-! ## A time that runs backwards -/

namespace OrphanSample

/-- A block without transactions. -/
def block (previous nonce : Nat) : Block where
  header :=
    { version := 1
      previous := .ofNat previous
      merkleRoot := .zero
      time := .epoch
      bits := 0
      nonce := .ofNat nonce
      size := 0
      validator := default
      signature := [] }
  transactions := []

/-- The instant of a second. -/
def second (seconds : Nat) : Instant := (Instant.ofUnix? seconds 0).getD .epoch

/-- The second block is added at an earlier time than the first, and so gives way to the third. -/
def calls : List OrphanCall :=
  [.add (block 1 1) (second 1000), .add (block 1 2) (second 100), .add (block 2 3) (second 150),
    .takeChildren (.ofNat 1) (second 800), .remove (block 2 3).hash]

end OrphanSample

/-- The block that was added last but one has given way. -/
theorem orphans_kept_exactly_of_eviction :
    (OrphanPool.ofLimits 2 600).Admits OrphanSample.calls ∧
      (OrphanCall.performAll OrphanIndex.perform (.ofLimits 2 600) OrphanSample.calls).1 =
        [[], [], [], [OrphanSample.block 1 1], [OrphanSample.block 2 3]] ∧
      KeptExactly 2 600
        (OrphanCall.performAll OrphanIndex.perform (.ofLimits 2 600) OrphanSample.calls).2
        (OrphanCall.performAll OrphanPool.perform (.ofLimits 2 600) OrphanSample.calls).2 := by
  obtain ⟨hnew, hhanded⟩ : (OrphanPool.ofLimits 2 600).Admits OrphanSample.calls ∧
      (OrphanCall.performAll OrphanPool.perform (.ofLimits 2 600) OrphanSample.calls).1 =
        [[], [], [], [OrphanSample.block 1 1], [OrphanSample.block 2 3]] := by
    decide +kernel
  obtain ⟨hanswers, hkept⟩ := orphans_kept_exactly 2 600 OrphanSample.calls hnew
  exact ⟨hnew, hanswers.trans hhanded, hkept⟩

end PermissionedLedger
