import Mathlib
import PermissionedLedger.Proofs.Chain.OrphanIndex

/-!
# The block to ask for

`OrphanPool.rootOf` finds the first of the held blocks that lead to a digest, the one whose parent
is missing. It follows every link at most once. The plain loop goes on for as long as the parent is
held (`OrphanPool.ascend`), which is for ever where links lead in a circle
(`OrphanPool.ascend_eq_none_of_circle`).

Where they do not (`OrphanPool.Acyclic`), the loop ends within as many turns as there are blocks
and one more, and finds the same (`OrphanPool.Acyclic.ascend_eq`). What carries this is that a
block which was left behind is never met again, as it leads to every block that is met later.
-/

namespace PermissionedLedger

namespace OrphanPool

open Relation (TransGen ReflTransGen)

variable {p : OrphanPool} {o : Orphan} {a b hash root : Digest} {turns : Nat}

/-! ## The loop -/

/-- The loop, with a limited number of turns. It goes on with the parent as long as that is held,
and has no result if the turns do not suffice. -/
def ascend (p : OrphanPool) : (turns : Nat) → Digest → Option Digest
  | 0, _ => none
  | turns + 1, hash =>
    match p.find? hash with
    | none => some hash
    | some o => if p.contains o.parent then p.ascend turns o.parent else some o.block.hash

/-- A held block has a parent that is held as well. -/
def Links (p : OrphanPool) (a b : Digest) : Prop :=
  ∃ o, p.find? a = some o ∧ o.parent = b ∧ p.contains b = true

/-- No block is among those that links lead to from it. -/
def Acyclic (p : OrphanPool) : Prop := ∀ hash, ¬ TransGen p.Links hash hash

/-- A held block whose parent is missing, to which links lead from a digest. -/
def HasRoot (p : OrphanPool) (hash root : Digest) : Prop :=
  ∃ o, p.find? root = some o ∧ o.block.hash = root ∧ p.contains o.parent = false ∧
    ReflTransGen p.Links hash root

theorem Named.hash_of_find? (hn : p.Named) (hfind : p.find? hash = some o) : o.block.hash = hash :=
  (hn o (List.mem_of_find?_eq_some hfind)).symm.trans (OrphanPool.hash_of_find? hfind)

/-- Links lead on from held blocks only. -/
theorem exists_of_leads (h : TransGen p.Links a b) : ∃ o, p.find? a = some o := by
  obtain ⟨next, ⟨o, hfind, -⟩, -⟩ := TransGen.head'_iff.1 h
  exact ⟨o, hfind⟩

theorem ascend_of_link (h : p.Links a b) : p.ascend (turns + 1) a = p.ascend turns b := by
  obtain ⟨o, hfind, rfl, hparent⟩ := h
  simp only [ascend, hfind, hparent, if_true]

theorem ascend_of_missing (hfind : p.find? hash = some o) (hparent : p.contains o.parent = false) :
    p.ascend (turns + 1) hash = some o.block.hash := by
  simp only [ascend, hfind, hparent, Bool.false_eq_true, if_false]

theorem ascend_of_unheld (hfind : p.find? hash = none) : p.ascend (turns + 1) hash = some hash := by
  simp only [ascend, hfind]

/-- What the loop finds, if it finds anything. -/
theorem hasRoot_of_ascend (hn : p.Named) (hheld : p.contains hash = true)
    (h : p.ascend turns hash = some root) : p.HasRoot hash root := by
  induction turns generalizing hash with
  | zero => cases h
  | succ turns ih =>
    obtain ⟨o, hfind⟩ := Option.isSome_iff_exists.1 hheld
    cases hparent : p.contains o.parent with
    | true =>
      have hlink : p.Links hash o.parent := ⟨o, hfind, rfl, hparent⟩
      rw [ascend_of_link hlink] at h
      obtain ⟨r, hr, hname, hlast, hlinks⟩ := ih hparent h
      exact ⟨r, hr, hname, hlast, .head hlink hlinks⟩
    | false =>
      rw [ascend_of_missing hfind hparent] at h
      obtain rfl := Option.some.inj h
      rw [hn.hash_of_find? hfind]
      exact ⟨o, hfind, hn.hash_of_find? hfind, hparent, .refl⟩

/-- The loop never ends on a circle. -/
theorem ascend_eq_none_of_circle (h : TransGen p.Links hash hash) (turns : Nat) :
    p.ascend turns hash = none := by
  induction turns generalizing hash with
  | zero => rfl
  | succ turns ih =>
    -- the next block is on the circle too
    obtain ⟨next, hlink, hback⟩ := TransGen.head'_iff.1 h
    rw [ascend_of_link hlink]
    exact ih (TransGen.tail' hback hlink)

/-! ## Without circles -/

/-- The search has come to a digest, and what is not among the blocks left leads there. -/
def Trails (p : OrphanPool) (left : List Orphan) (hash : Digest) : Prop :=
  ∀ key, left.find? (·.hash = key) = p.find? key ∨ TransGen p.Links key hash

namespace Trails

variable {left : List Orphan}

theorem start (p : OrphanPool) (hash : Digest) : p.Trails p.held hash := fun _ => .inl rfl

/-- The block that the search has come to is left, as it would lead to itself otherwise. -/
theorem find?_eq (h : p.Trails left hash) (hacyclic : p.Acyclic) :
    left.find? (·.hash = hash) = p.find? hash :=
  (h hash).resolve_right (hacyclic hash)

theorem find?_without {key : Digest} (hne : key ≠ hash) :
    (without hash left).find? (·.hash = key) = left.find? (·.hash = key) := by
  rw [without, List.find?_filter]
  refine congrArg (List.find? · left) (funext fun o => decide_eq_decide.2 ?_)
  rw [decide_eq_true_iff, decide_eq_true_iff, and_iff_right_iff_imp]
  rintro rfl
  exact hne

/-- The search goes on to the parent. -/
theorem next (h : p.Trails left a) (hlink : p.Links a b) : p.Trails (without a left) b := by
  intro key
  by_cases heq : key = a
  · exact .inr (heq ▸ .single hlink)
  · rw [find?_without heq]
    exact (h key).imp_right fun hleads => hleads.tail hlink

/-- The parent is left if it is held at all. -/
theorem any_parent (h : p.Trails left hash) (hacyclic : p.Acyclic) (hfind : p.find? hash = some o) :
    (without hash left).any (·.hash = o.parent) = p.contains o.parent := by
  rw [← List.isSome_find?, contains]
  refine congrArg Option.isSome ?_
  cases hparent : p.contains o.parent with
  | true => exact (h.next ⟨o, hfind, rfl, hparent⟩).find?_eq hacyclic
  | false =>
    have hne : o.parent ≠ hash := by
      intro heq
      rw [heq, contains, hfind] at hparent
      cases hparent
    rw [find?_without hne]
    refine (h o.parent).resolve_right fun hleads => ?_
    obtain ⟨o', hfind'⟩ := exists_of_leads hleads
    rw [contains, hfind'] at hparent
    cases hparent

/-- The loop finds what is found among the blocks that are left. -/
theorem ascend_eq (h : p.Trails left hash) (hn : p.Named) (hacyclic : p.Acyclic)
    (hturns : left.length < turns) : p.ascend turns hash = some (rootAmong left hash) := by
  obtain ⟨turns, rfl⟩ := Nat.exists_eq_succ_of_ne_zero (Nat.ne_zero_of_lt hturns)
  have hsame := h.find?_eq hacyclic
  fun_induction rootAmong left hash generalizing turns with
  | case1 left hash hnone => exact ascend_of_unheld (hsame.symm.trans hnone)
  | case2 left hash o hsome rest hany ih =>
    have hfind : p.find? hash = some o := hsame.symm.trans hsome
    have hlink : p.Links hash o.parent := ⟨o, hfind, rfl, h.any_parent hacyclic hfind ▸ hany⟩
    have hfewer : rest.length < left.length :=
      length_without_lt (List.mem_of_find?_eq_some hsome) (hash_of_find? hfind)
    have hnext := h.next hlink
    obtain ⟨turns, rfl⟩ := Nat.exists_eq_succ_of_ne_zero (show turns ≠ 0 by omega)
    rw [ascend_of_link hlink]
    exact ih hnext turns (by omega) (hnext.find?_eq hacyclic)
  | case3 left hash o hsome rest hany =>
    have hfind : p.find? hash = some o := hsame.symm.trans hsome
    have hmissing : p.contains o.parent = false :=
      (h.any_parent hacyclic hfind).symm.trans (Bool.eq_false_iff.2 hany)
    rw [ascend_of_missing hfind hmissing, hn.hash_of_find? hfind]

end Trails

/-- Without circles the loop ends, and finds what the search finds that follows each link once. -/
theorem Acyclic.ascend_eq (hacyclic : p.Acyclic) (hn : p.Named) (hash : Digest)
    (hturns : p.size < turns) : p.ascend turns hash = some (p.rootOf hash) :=
  (Trails.start p hash).ascend_eq hn hacyclic hturns

/-- There are no circles if the loop ends from every held block. -/
theorem acyclic_iff (hn : p.Named) :
    p.Acyclic ↔ ∀ o ∈ p.held, (p.ascend (p.size + 1) o.hash).isSome := by
  constructor
  · intro hacyclic o _
    rw [hacyclic.ascend_eq hn o.hash (Nat.lt_succ_self _)]
    rfl
  · intro hends hash hcircle
    obtain ⟨o, hfind⟩ := exists_of_leads hcircle
    have hsome := hends o (List.mem_of_find?_eq_some hfind)
    rw [hash_of_find? hfind, ascend_eq_none_of_circle hcircle] at hsome
    cases hsome

/-! ## The block that is found -/

theorem Links.unique (hb : p.Links a b) {c : Digest} (hc : p.Links a c) : b = c := by
  obtain ⟨o, hfind, rfl, -⟩ := hb
  obtain ⟨o', hfind', rfl, -⟩ := hc
  rw [Option.some.inj (hfind.symm.trans hfind')]

/-- No link leads on from a block whose parent is missing. -/
theorem HasRoot.eq_of_links (h : p.HasRoot hash root) (hlinks : ReflTransGen p.Links root b) :
    b = root := by
  obtain ⟨o, hfind, -, hmissing, -⟩ := h
  rcases ReflTransGen.cases_head hlinks with heq | ⟨next, ⟨o', hfind', rfl, hparent⟩, -⟩
  · exact heq.symm
  · rw [Option.some.inj (hfind'.symm.trans hfind), hmissing] at hparent
    cases hparent

/-- There is one block to ask for at most. -/
theorem HasRoot.unique (ha : p.HasRoot hash a) (hb : p.HasRoot hash b) : a = b := by
  have ⟨_, _, _, _, hlinks⟩ := ha
  have ⟨_, _, _, _, hlinks'⟩ := hb
  rcases ReflTransGen.total_of_right_unique (fun _ _ _ h h' => h.unique h') hlinks hlinks' with
    hab | hba
  · exact (ha.eq_of_links hab).symm
  · exact hb.eq_of_links hba

/-! ## Calls -/

theorem Named.perform (hn : p.Named) : (call : OrphanCall) → (p.perform call).2.Named
  | .add .. => hn.add
  | .remove _ => fun o ho => hn o (mem_remove.1 ho).1
  | .takeChildren .. => hn.takeChildren

theorem Named.performAll (hn : p.Named) (calls : List OrphanCall) :
    (OrphanCall.performAll OrphanPool.perform p calls).2.Named := by
  induction calls generalizing p with
  | nil => exact hn
  | cons call calls ih => exact ih (hn.perform call)

/-- Whatever calls were made of an empty pool, if links do not lead in a circle, the loop ends. From
a digest that is not held it ends right there. From one that is held it comes to the one held block
to which links lead and whose parent is missing. -/
theorem root_found (capacity : Nat) (lifetime : Int) (calls : List OrphanCall) {p : OrphanPool}
    (hp : (OrphanCall.performAll OrphanPool.perform (.ofLimits capacity lifetime) calls).2 = p)
    (hacyclic : p.Acyclic) (hash : Digest) :
    (∀ turns, p.size < turns → p.ascend turns hash = some (p.rootOf hash)) ∧
    (p.contains hash = false → p.rootOf hash = hash) ∧
    (p.contains hash = true → ∀ root, p.HasRoot hash root ↔ root = p.rootOf hash) := by
  have hn : p.Named := hp ▸ (named_ofLimits capacity lifetime).performAll calls
  have hends : p.ascend (p.size + 1) hash = some (p.rootOf hash) :=
    hacyclic.ascend_eq hn hash (Nat.lt_succ_self _)
  refine ⟨fun turns => hacyclic.ascend_eq hn hash, fun hunheld => ?_, fun hheld root => ?_⟩
  · rw [contains, Option.isSome_eq_false_iff, Option.isNone_iff_eq_none] at hunheld
    rw [ascend_of_unheld hunheld] at hends
    exact (Option.some.inj hends).symm
  · have hroot := hasRoot_of_ascend hn hheld hends
    exact ⟨fun h => h.unique hroot, fun heq => heq ▸ hroot⟩

end OrphanPool

namespace OrphanSample

/-- A block over another. -/
def onTop (b : Block) (nonce : Nat) : Block :=
  { b with header := { b.header with previous := b.hash, nonce := .ofNat nonce } }

/-- A block whose parent is missing. -/
def eldest : Block := block 9 1

/-- A block two places above. -/
def youngest : Block := onTop (onTop eldest 2) 3

/-- These two and the one between them, which arrive in the reverse order. -/
def arrivals : List OrphanCall :=
  [.add youngest (second 0), .add (onTop eldest 2) (second 1), .add eldest (second 2)]

/-- The pool that they arrive in. -/
def reversed : OrphanPool :=
  (OrphanCall.performAll OrphanPool.perform (.ofLimits 3 600) arrivals).2

end OrphanSample

/-- The parent of the eldest is to be asked for. -/
theorem OrphanPool.root_found_of_reversed : OrphanSample.reversed.Acyclic ∧
    OrphanSample.reversed.ascend 4 OrphanSample.youngest.hash =
      some (OrphanSample.reversed.rootOf OrphanSample.youngest.hash) ∧
    OrphanSample.reversed.rootOf OrphanSample.youngest.hash = OrphanSample.eldest.hash ∧
    OrphanSample.reversed.HasRoot OrphanSample.youngest.hash OrphanSample.eldest.hash ∧
    OrphanSample.reversed.rootOf (.ofNat 9) = .ofNat 9 := by
  have hn : OrphanSample.reversed.Named := (named_ofLimits 3 600).performAll OrphanSample.arrivals
  obtain ⟨hends, hsize, hfound, hheld, hunheld⟩ :
      (∀ o ∈ OrphanSample.reversed.held,
        (OrphanSample.reversed.ascend (OrphanSample.reversed.size + 1) o.hash).isSome) ∧
      OrphanSample.reversed.size < 4 ∧
      OrphanSample.reversed.ascend 4 OrphanSample.youngest.hash =
        some OrphanSample.eldest.hash ∧
      OrphanSample.reversed.contains OrphanSample.youngest.hash = true ∧
      OrphanSample.reversed.contains (.ofNat 9) = false := by
    decide +kernel
  have hacyclic := (acyclic_iff hn).2 hends
  obtain ⟨hloop, -, hroot⟩ :=
    root_found 3 600 OrphanSample.arrivals rfl hacyclic OrphanSample.youngest.hash
  obtain ⟨-, hmissing, -⟩ := root_found 3 600 OrphanSample.arrivals rfl hacyclic (.ofNat 9)
  have heldest : OrphanSample.reversed.rootOf OrphanSample.youngest.hash =
      OrphanSample.eldest.hash := Option.some.inj ((hloop 4 hsize).symm.trans hfound)
  exact ⟨hacyclic, hloop 4 hsize, heldest, (hroot hheld _).2 heldest.symm, hmissing hunheld⟩

end PermissionedLedger
