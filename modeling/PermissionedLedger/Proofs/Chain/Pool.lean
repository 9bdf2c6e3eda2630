import Mathlib
import PermissionedLedger.Chain.Orphans

/-!
# The pool of orphans

What the pool holds after each of its operations, as blocks (`OrphanPool.blocks`): blocks
are only ever dropped, taken out, or added at the end. Nothing is dropped where there is
room and nothing has expired (`blocks_add_of_room`).
-/

namespace PermissionedLedger.OrphanPool

open Time (Instant)

variable {p : OrphanPool} {block : Block} {hash parent : Digest} {now : Instant}

/-- The blocks that are held. -/
def blocks (p : OrphanPool) : List Block := p.held.map (·.block)

/-- Orphans are held under the digests of their blocks. -/
def Named (p : OrphanPool) : Prop := ∀ o ∈ p.held, o.hash = o.block.hash

/-- Nothing has expired. -/
def Fresh (p : OrphanPool) (now : Instant) : Prop := ∀ o ∈ p.held, o.isExpired now = false

@[simp] theorem blocks_ofLimits (capacity : Nat) (lifetime : Int) :
    (ofLimits capacity lifetime).blocks = [] := rfl

theorem named_ofLimits (capacity : Nat) (lifetime : Int) : (ofLimits capacity lifetime).Named :=
  fun _ h => nomatch h

theorem contains_iff (hn : p.Named) : p.contains hash = true ↔ hash ∈ p.blocks.map (·.hash) := by
  rw [contains, find?, List.find?_isSome, blocks, List.map_map, List.mem_map]
  constructor
  · rintro ⟨o, ho, heq⟩
    exact ⟨o, ho, (hn o ho).symm.trans (of_decide_eq_true heq)⟩
  · rintro ⟨o, ho, heq⟩
    exact ⟨o, ho, decide_eq_true ((hn o ho).trans heq)⟩

/-! ## Dropping -/

theorem held_dropOldest (p : OrphanPool) : p.dropOldest.held.Sublist p.held := by
  rw [dropOldest]
  split
  · exact List.filter_sublist
  · exact List.Sublist.refl _

theorem held_makeRoom (p : OrphanPool) : p.makeRoom.held.Sublist p.held := by
  rw [makeRoom]
  generalize List.range (p.size + 1 - p.capacity) = steps
  induction steps generalizing p with
  | nil => exact List.Sublist.refl _
  | cons _ steps ih => exact (ih p.dropOldest).trans (held_dropOldest p)

/-- Nothing makes room where there is room. -/
theorem makeRoom_of_lt (h : p.size < p.capacity) : p.makeRoom = p := by
  have hzero : p.size + 1 - p.capacity = 0 := by omega
  rw [makeRoom, hzero]
  rfl

theorem held_dropExpired (p : OrphanPool) (now : Instant) :
    (p.dropExpired now).held.Sublist p.held :=
  List.filter_sublist

theorem dropExpired_of_fresh (h : p.Fresh now) : p.dropExpired now = p := by
  have hheld : p.held.filter (!·.isExpired now) = p.held :=
    List.filter_eq_self.2 fun o ho => by rw [h o ho]; rfl
  rw [dropExpired, hheld]

/-! ## Adding -/

theorem place_of_new {o : Orphan} {held : List Orphan} (h : ∀ o' ∈ held, o'.hash ≠ o.hash) :
    place o held = held ++ [o] := by
  induction held with
  | nil => rfl
  | cons o' held ih =>
    rw [place, if_neg (h o' (List.mem_cons_self ..)),
      ih fun o'' ho'' => h o'' (List.mem_cons_of_mem _ ho'')]
    rfl

theorem mem_place {o o' : Orphan} {held : List Orphan} (h : o' ∈ place o held) :
    o' = o ∨ o' ∈ held := by
  induction held with
  | nil => exact .inl (List.mem_singleton.1 h)
  | cons first held ih =>
    rw [place] at h
    split at h
    · exact (List.mem_cons.1 h).imp_right (List.mem_cons_of_mem _)
    · rcases List.mem_cons.1 h with rfl | h
      · exact .inr (List.mem_cons_self ..)
      · exact (ih h).imp_right (List.mem_cons_of_mem _)

/-- A new block comes after those that are kept. -/
theorem held_add (hnew : p.contains block.hash = false) :
    (p.add block now).held = ((p.dropExpired now).makeRoom).held ++
      [⟨block.hash, block, now.addSeconds ((p.dropExpired now).makeRoom).lifetime,
        ((p.dropExpired now).makeRoom).turns⟩] := by
  have hsub : ((p.dropExpired now).makeRoom).held.Sublist p.held :=
    (held_makeRoom _).trans (held_dropExpired p now)
  refine place_of_new fun o ho heq => ?_
  rw [contains, find?, Option.isSome_eq_false_iff, Option.isNone_iff_eq_none,
    List.find?_eq_none] at hnew
  exact hnew o (hsub.subset ho) (decide_eq_true heq)

theorem blocks_add (hnew : p.contains block.hash = false) (now : Instant) :
    ∃ kept, kept.Sublist p.blocks ∧ (p.add block now).blocks = kept ++ [block] := by
  refine ⟨((p.dropExpired now).makeRoom).blocks,
    ((held_makeRoom _).trans (held_dropExpired p now)).map _, ?_⟩
  rw [blocks, held_add hnew, List.map_append]
  rfl

/-- A new block is held. -/
theorem contains_add (hnew : p.contains block.hash = false) (now : Instant) :
    (p.add block now).contains block.hash = true := by
  rw [contains, find?, held_add hnew, List.find?_isSome]
  exact ⟨_, List.mem_append_right _ (List.mem_singleton_self _), decide_eq_true rfl⟩

theorem Named.add (hn : p.Named) : (p.add block now).Named := by
  intro o ho
  rcases mem_place ho with rfl | ho
  · rfl
  · exact hn o (((held_makeRoom _).trans (held_dropExpired p now)).subset ho)

/-- Where there is room and nothing has expired, a new block is added and that is all. -/
theorem add_of_room (hnew : p.contains block.hash = false) (hfresh : p.Fresh now)
    (hroom : p.size < p.capacity) :
    p.add block now = { p with
      held := p.held ++ [⟨block.hash, block, now.addSeconds p.lifetime, p.turns⟩]
      turns := p.turns + 1 } := by
  have hheld : (p.add block now).held = _ := held_add hnew
  rw [dropExpired_of_fresh hfresh, makeRoom_of_lt hroom] at hheld
  rw [← hheld, add, dropExpired_of_fresh hfresh, makeRoom_of_lt hroom]

theorem blocks_add_of_room (hnew : p.contains block.hash = false) (hfresh : p.Fresh now)
    (hroom : p.size < p.capacity) : (p.add block now).blocks = p.blocks ++ [block] := by
  rw [add_of_room hnew hfresh hroom, blocks, List.map_append]
  rfl

theorem Fresh.add (hfresh : p.Fresh now) (hnew : p.contains block.hash = false)
    (hroom : p.size < p.capacity) (hlater : now < now.addSeconds p.lifetime) :
    (p.add block now).Fresh now := by
  intro o ho
  rw [add_of_room hnew hfresh hroom] at ho
  rcases List.mem_append.1 ho with ho | ho
  · exact hfresh o ho
  · rw [List.mem_singleton.1 ho, Orphan.isExpired, decide_eq_false_iff_not, Instant.not_le]
    exact hlater

/-! ## Taking out -/

theorem held_takeChildren (p : OrphanPool) (parent : Digest) (now : Instant) :
    (p.takeChildren parent now).2.held = p.held.filter fun o => !decide (o.parent = parent) := by
  rw [takeChildren, List.partition_eq_filter_filter]
  rfl

/-- Those taken out wait for the parent and have not expired. -/
theorem mem_takeChildren {b : Block} : b ∈ (p.takeChildren parent now).1 ↔
    ∃ o ∈ p.held, o.parent = parent ∧ o.isExpired now = false ∧ o.block = b := by
  rw [takeChildren, List.partition_eq_filter_filter]
  simp only [List.mem_map, List.mem_filter, decide_eq_true_eq, Bool.not_eq_true']
  constructor
  · rintro ⟨o, ⟨⟨ho, hparent⟩, hlasts⟩, hb⟩
    exact ⟨o, ho, hparent, hlasts, hb⟩
  · rintro ⟨o, ho, hparent, hlasts, hb⟩
    exact ⟨o, ⟨⟨ho, hparent⟩, hlasts⟩, hb⟩

theorem held_takeChildren_subset (p : OrphanPool) (parent : Digest) (now : Instant) :
    (p.takeChildren parent now).2.held ⊆ p.held := by
  rw [held_takeChildren]
  exact List.filter_subset_self ..

/-- Those taken out and those that remain were held, and differ. -/
theorem blocks_takeChildren (p : OrphanPool) (parent : Digest) (now : Instant) :
    ∃ children, (p.takeChildren parent now).1.Sublist children ∧
      (children ++ (p.takeChildren parent now).2.blocks).Perm p.blocks := by
  refine ⟨(p.held.filter fun o => decide (o.parent = parent)).map (·.block), ?_, ?_⟩
  · rw [takeChildren, List.partition_eq_filter_filter]
    exact List.Sublist.map _ List.filter_sublist
  · rw [blocks, held_takeChildren, ← List.map_append, blocks]
    exact (List.filter_append_perm _ _).map _

/-- All children are taken out where nothing has expired. -/
theorem takeChildren_of_fresh (hfresh : p.Fresh now) (parent : Digest) :
    (p.takeChildren parent now).1 = p.blocks.filter (·.header.previous = parent) ∧
      (p.takeChildren parent now).2.blocks = p.blocks.filter (¬ ·.header.previous = parent) := by
  constructor
  · rw [takeChildren, List.partition_eq_filter_filter, blocks, List.filter_map]
    refine congrArg (List.map _) ?_
    rw [List.filter_eq_self.2 fun o ho => by rw [hfresh o (List.mem_filter.1 ho).1]; rfl]
    rfl
  · rw [blocks, held_takeChildren, blocks, List.filter_map]
    refine congrArg (List.map _) (List.filter_congr fun o _ => ?_)
    rw [Function.comp_apply, decide_not]
    rfl

theorem Fresh.takeChildren (hfresh : p.Fresh now) : (p.takeChildren parent now).2.Fresh now := by
  intro o ho
  rw [held_takeChildren] at ho
  exact hfresh o (List.mem_filter.1 ho).1

theorem Named.takeChildren (hn : p.Named) : (p.takeChildren parent now).2.Named := by
  intro o ho
  rw [held_takeChildren] at ho
  exact hn o (List.mem_filter.1 ho).1

/-! ## Counting on

Only the order of the turns matters, not their numbers. -/

/-- The orphan with its turn counted from a later one. -/
def later (k : Nat) (o : Orphan) : Orphan := { o with turn := o.turn + k }

/-- The pool with all turns counted from a later one. -/
def shift (p : OrphanPool) (k : Nat) : OrphanPool :=
  { p with held := p.held.map (later k), turns := p.turns + k }

variable (p : OrphanPool) (k : Nat)

theorem shift_zero : p.shift 0 = p := by
  have hlater : later 0 = id := rfl
  rw [shift, hlater, List.map_id, Nat.add_zero]

theorem isOlder_later (a b : Orphan) : (later k a).isOlder (later k b) = a.isOlder b := by
  have hturn : decide (a.turn + k < b.turn + k) = decide (a.turn < b.turn) := by simp
  rw [Orphan.isOlder, Orphan.isOlder, later, later, hturn]

theorem contains_shift (hash : Digest) : (p.shift k).contains hash = p.contains hash := by
  rw [contains, contains, find?, find?, shift, List.find?_map, Option.isSome_map]
  rfl

theorem remove_shift (hash : Digest) : (p.shift k).remove hash = (p.remove hash).shift k := by
  rw [remove, remove, shift, shift, without, without, List.filter_map]
  rfl

theorem dropExpired_shift (now : Instant) :
    (p.shift k).dropExpired now = (p.dropExpired now).shift k := by
  rw [dropExpired, dropExpired, shift, shift, List.filter_map]
  rfl

theorem foldl_older_map (o : Orphan) (os : List Orphan) :
    (os.map (later k)).foldl (fun oldest o => if o.isOlder oldest then o else oldest) (later k o) =
      later k (os.foldl (fun oldest o => if o.isOlder oldest then o else oldest) o) := by
  induction os generalizing o with
  | nil => rfl
  | cons o' os ih =>
    rw [List.map_cons, List.foldl_cons, List.foldl_cons, isOlder_later, ← ih]
    split <;> rfl

theorem oldest?_shift : (p.shift k).oldest? = p.oldest?.map (later k) := by
  rw [oldest?, oldest?, shift]
  rcases p.held with _ | ⟨o, os⟩
  · rfl
  · exact congrArg some (foldl_older_map k o os)

theorem dropOldest_shift : (p.shift k).dropOldest = p.dropOldest.shift k := by
  rw [dropOldest, dropOldest, oldest?_shift]
  rcases p.oldest? with _ | o
  · rfl
  · exact remove_shift p k o.hash

theorem makeRoom_shift : (p.shift k).makeRoom = p.makeRoom.shift k := by
  have hsize : (p.shift k).size = p.size := List.length_map _
  have hcapacity : (p.shift k).capacity = p.capacity := rfl
  rw [makeRoom, makeRoom, hsize, hcapacity]
  generalize List.range (p.size + 1 - p.capacity) = steps
  clear hsize hcapacity
  induction steps generalizing p with
  | nil => rfl
  | cons _ steps ih => rw [List.foldl_cons, List.foldl_cons, dropOldest_shift, ih]

theorem place_map (o : Orphan) (held : List Orphan) :
    place (later k o) (held.map (later k)) = (place o held).map (later k) := by
  induction held with
  | nil => rfl
  | cons o' held ih =>
    have hhash : ∀ o : Orphan, (later k o).hash = o.hash := fun _ => rfl
    rw [List.map_cons, place, place, hhash, hhash]
    split
    · rfl
    · rw [ih, List.map_cons]

theorem add_shift (block : Block) (now : Instant) :
    (p.shift k).add block now = (p.add block now).shift k := by
  rw [add, add, dropExpired_shift, makeRoom_shift]
  generalize (p.dropExpired now).makeRoom = q
  have hplace := place_map k ⟨block.hash, block, now.addSeconds q.lifetime, q.turns⟩ q.held
  rw [later] at hplace
  simp only [shift, hplace, Nat.add_right_comm]

theorem takeChildren_shift (parent : Digest) (now : Instant) :
    (p.shift k).takeChildren parent now =
      ((p.takeChildren parent now).1, (p.takeChildren parent now).2.shift k) := by
  simp only [takeChildren, shift, List.partition_eq_filter_filter, List.filter_map, List.map_map]
  rfl

end PermissionedLedger.OrphanPool
