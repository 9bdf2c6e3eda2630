import Mathlib
import PermissionedLedger.Proofs.Chain.Mirror
import PermissionedLedger.Proofs.Coins.Line

/-!
# Switching between lines

Nodes *climb* from a line to another if their blocks come on top of it one after
another (`Climb`). Going down again and going up are what `Switch.detach` and
`Switch.attach` do:

* `detach` always gets down to the lower line where the blocks fit and their journals
  are stored (`detach_eq_ok`);
* `attach` either gets to the upper line, and then every block passed in its place
  (`attach_complete`), or stops at the first node whose block does not
  (`attach_broken`). What it writes on the way is `attachedWrites`.
-/

namespace PermissionedLedger

open CoinView BlockTree

variable {params : Params} {verify : Verifier} {flags : AddFlags} {T : Tables}
  {blocks : Std.ExtTreeMap Digest Block} {base top : List Block} {ps : List (Nat × TreeNode)}

/-! ## Climbing -/

namespace BlockTree

variable {t : BlockTree}

theorem mem_located {ids : List Nat} {i : Nat} {n : TreeNode} :
    (i, n) ∈ t.located ids ↔ i ∈ ids ∧ t.node? i = some n := by
  rw [located, List.mem_filterMap]
  constructor
  · rintro ⟨j, hj, h⟩
    obtain ⟨m, hm, heq⟩ := Option.map_eq_some_iff.1 h
    obtain ⟨rfl, rfl⟩ := Prod.mk.inj heq
    exact ⟨hj, hm⟩
  · rintro ⟨hi, hn⟩
    exact ⟨i, hi, by rw [hn, Option.map_some]⟩

theorem located_cons {i : Nat} {ids : List Nat} {n : TreeNode} (h : t.node? i = some n) :
    t.located (i :: ids) = (i, n) :: t.located ids := by
  rw [located, List.filterMap_cons, h, Option.map_some]
  rfl

theorem located_append (as bs : List Nat) :
    t.located (as ++ bs) = t.located as ++ t.located bs :=
  List.filterMap_append

theorem map_fst_located {ids : List Nat} (h : ∀ i ∈ ids, i < t.size) :
    (t.located ids).map Prod.fst = ids := by
  induction ids with
  | nil => rfl
  | cons i ids ih =>
    obtain ⟨n, hn⟩ := BlockTree.exists_node (h i (List.mem_cons_self ..))
    rw [located_cons hn, List.map_cons, ih fun j hj => h j (List.mem_cons_of_mem _ hj)]

end BlockTree

/-- The blocks of nodes lead from a line to another, each at its height. -/
inductive Climb (blocks : Std.ExtTreeMap Digest Block) :
    List Block → List (Nat × TreeNode) → List Block → Prop
  | nil (base : List Block) : Climb blocks base [] base
  | cons {base top : List Block} {ps : List (Nat × TreeNode)} {id : Nat} {node : TreeNode}
      {b : Block} (stored : blocks[node.hash]? = some b) (hash : b.hash = node.hash)
      (height : node.height = base.length) (rest : Climb blocks (b :: base) ps top) :
      Climb blocks base ((id, node) :: ps) top

namespace Climb

theorem append {mid : List Block} {qs : List (Nat × TreeNode)} (h : Climb blocks base ps mid)
    (h' : Climb blocks mid qs top) : Climb blocks base (ps ++ qs) top := by
  induction h with
  | nil base => exact h'
  | cons stored hash height rest ih => exact .cons stored hash height (ih h')

theorem suffix (h : Climb blocks base ps top) : base <:+ top := by
  induction h with
  | nil base => exact List.suffix_refl _
  | cons stored hash height rest ih => exact (List.suffix_cons ..).trans ih

/-- What is on the way up is below the upper line. -/
theorem suffix_of_append {pre post : List (Nat × TreeNode)} {mid : List Block} {id : Nat}
    {node : TreeNode} {b : Block} (h : Climb blocks base (pre ++ (id, node) :: post) top)
    (hpre : Climb blocks base pre mid) (hb : blocks[node.hash]? = some b) : b :: mid <:+ top := by
  induction hpre with
  | nil base =>
    cases h with
    | cons stored hash height rest =>
      obtain rfl := Option.some.inj (hb.symm.trans stored)
      exact rest.suffix
  | cons stored hash height rest ih =>
    cases h with
    | cons stored' hash' height' rest' =>
      obtain rfl := Option.some.inj (stored.symm.trans stored')
      exact ih rest'

end Climb

/-- The nodes after an ancestor climb from its branch. -/
theorem Mirror.climb {t : BlockTree} (h : Mirror params T t) {f i : Nat} (hf : f ∈ t.lineage i) :
    Climb T.blocks (T.branch t f) (t.located (t.pathFrom f i)) (T.branch t i) := by
  have hsplit := lineage_eq_pathFrom_append hf
  generalize hpath : t.pathFrom f i = path at hsplit ⊢
  clear hpath
  induction path using List.reverseRecOn generalizing i with
  | nil =>
    have hi := lt_size_of_mem hf
    obtain ⟨n, hn⟩ := BlockTree.exists_node hi
    obtain ⟨rest, hrest⟩ := lineage_eq_cons hn
    have hfi : f = i := by
      obtain ⟨m, hm⟩ := BlockTree.exists_node (lt_size_of_mem_lineage hf)
      obtain ⟨rest', hrest'⟩ := lineage_eq_cons hm
      rw [List.reverse_nil, List.nil_append, hrest, hrest'] at hsplit
      exact (List.cons.inj hsplit).1.symm
    rw [hfi]
    exact .nil _
  | append_singleton path j ih =>
    obtain ⟨n, hn⟩ := BlockTree.exists_node (lt_size_of_mem hf)
    rw [List.reverse_append, List.reverse_singleton, List.singleton_append,
      List.cons_append] at hsplit
    obtain ⟨b, hb, -⟩ := h.block hn
    obtain ⟨-, hash⟩ := h.block_hash hn hb
    have hmf := mem_lineage_self (lt_size_of_mem_lineage hf)
    rcases hp : n.parent with _ | p
    · rw [lineage_root hn hp] at hsplit
      obtain ⟨-, hnil⟩ := List.cons.inj hsplit
      rw [(List.append_eq_nil_iff.1 hnil.symm).2] at hmf
      cases hmf
    · rw [lineage_child hn hp] at hsplit
      obtain ⟨rfl, hrest⟩ := List.cons.inj hsplit
      obtain ⟨m, hm⟩ := exists_parent hn hp
      have hfp : f ∈ t.lineage p := by
        rw [hrest]
        exact List.mem_append_right _ hmf
      rw [located_append, located_cons hn, Tables.branch_of_child hn hp hb]
      refine (ih hfp hrest).append (.cons hb hash ?_ (.nil _))
      rw [h.length_branch hm, (h.coherent.of_child hn hp hm).1]

namespace Switch

/-! ## Going down -/

theorem detach_append {v u w : CoinView} {xs ys : List TreeNode} {first rest : Batch}
    (h : detach T v xs = .ok (u, first)) (h' : detach T u ys = .ok (w, rest)) :
    detach T v (xs ++ ys) = .ok (w, first ++ rest) := by
  induction xs generalizing v first with
  | nil =>
    rw [detach] at h
    obtain ⟨rfl, rfl⟩ := Prod.mk.inj (Except.ok.inj h)
    exact h'
  | cons node xs ih =>
    rw [detach] at h
    obtain ⟨block, hblock, h⟩ := bind_eq_ok.1 h
    obtain ⟨journal, hjournal, h⟩ := bind_eq_ok.1 h
    rcases hd : v.disconnect block journal with ⟨e | _, v'⟩
    · rw [hd] at h
      cases h
    · rw [hd] at h
      obtain ⟨⟨u', writes⟩, hrest, h⟩ := bind_eq_ok.1 h
      obtain ⟨rfl, rfl⟩ := Prod.mk.inj (Except.ok.inj h)
      rw [List.cons_append, detach]
      refine bind_eq_ok.2 ⟨block, hblock, bind_eq_ok.2 ⟨journal, hjournal, ?_⟩⟩
      rw [hd]
      exact bind_eq_ok.2 ⟨(w, writes ++ rest), ih hrest, rfl⟩

/-- Going down drops the journal of every node on the way. -/
theorem dropped_of_detach {v u : CoinView} {xs : List TreeNode} {dropped : Batch}
    (h : detach T v xs = .ok (u, dropped)) :
    dropped = xs.map fun node => .deleteJournal node.hash := by
  induction xs generalizing v u dropped with
  | nil =>
    rw [detach] at h
    exact (Prod.mk.inj (Except.ok.inj h)).2.symm
  | cons node xs ih =>
    rw [detach] at h
    obtain ⟨block, -, h⟩ := bind_eq_ok.1 h
    obtain ⟨journal, -, h⟩ := bind_eq_ok.1 h
    rcases hd : v.disconnect block journal with ⟨e | _, v'⟩
    · rw [hd] at h
      cases h
    · rw [hd] at h
      obtain ⟨⟨u', writes⟩, hrest, h⟩ := bind_eq_ok.1 h
      obtain ⟨-, rfl⟩ := Prod.mk.inj (Except.ok.inj h)
      rw [List.map_cons, ih hrest]

/-- Where blocks fit and their journals are stored, they can be undone down to any line below. -/
theorem detach_eq_ok (hc : Climb T.blocks base ps top) (hfits : Throughout Block.Fits top)
    (hjournals : ∀ b older, b :: older <:+ top → T.journals[b.hash]? = some (journalOf b older))
    {w : CoinView} (hw : w.Alike (ofLine top)) :
    ∃ u, detach T w (ps.reverse.map (·.2)) =
        .ok (u, ps.reverse.map fun p => .deleteJournal p.2.hash) ∧
      u.Alike (ofLine base) ∧ u.base = w.base := by
  induction hc with
  | nil base => exact ⟨w, rfl, hw, rfl⟩
  | @cons base top ps id node b stored hash height rest ih =>
    obtain ⟨u, hu, halike, hbase⟩ := ih hfits hjournals hw
    obtain ⟨u', hu', halike', hbase'⟩ := disconnect_ofLine (hfits b base rest.suffix) halike
    refine ⟨u', ?_, halike', hbase'.trans hbase⟩
    rw [List.reverse_cons, List.map_append, List.map_append]
    refine detach_append hu ?_
    rw [List.map_singleton, List.map_singleton, detach]
    have hblock : storedBlock T node = .ok b := by rw [storedBlock, stored]
    have hjournal : storedJournal T node = .ok (journalOf b base) := by
      rw [storedJournal, ← hash, hjournals b base rest.suffix]
    refine bind_eq_ok.2 ⟨b, hblock, bind_eq_ok.2 ⟨_, hjournal, ?_⟩⟩
    rw [hu']
    rfl

/-! ## Going up -/

theorem blockOf_eq_ok {newest b : Block} {node : TreeNode} :
    blockOf T newest node = .ok b ↔
      (T.blocks.insert newest.hash newest)[node.hash]? = some b := by
  rw [blockOf, getElem?_insert_eq]
  split
  · simp
  · rw [storedBlock]
    rcases T.blocks[node.hash]? with _ | c <;> simp

/-- The block of a node passes over a line: it was on the main chain before and can be connected, or
it was never tried and is accepted. -/
def Passes (params : Params) (verify : Verifier) (flags : AddFlags) (node : TreeNode) (b : Block)
    (older : List Block) : Prop :=
  ∃ r, connectNode params verify flags (ofLine older) node b = .ok r

theorem connectNode_eq_ok {v v' : CoinView} {node : TreeNode} {b : Block} {older : List Block}
    {journal : Journal} (hheight : node.height = older.length) (hv : v.Alike (ofLine older))
    (h : connectNode params verify flags v node b = .ok (v', journal)) :
    Passes params verify flags node b older ∧ journal = journalOf b older ∧
      v'.Alike (ofLine (b :: older)) ∧ v'.base = v.base := by
  rw [connectNode, hheight] at h
  rcases hstatus : node.status
  · rw [hstatus] at h
    obtain ⟨-, hjournal, halike, hbase⟩ := alike_ofLine_of_connect hv h
    refine ⟨⟨(ofLine (b :: older), journalOf b older), ?_⟩, hjournal, halike, hbase⟩
    rw [connectNode, hstatus, hheight]
    exact connect_ofLine_of_connect hv h
  · rw [hstatus] at h
    obtain ⟨-, hjournal, halike, hbase⟩ := alike_ofLine_of_connect hv h
    refine ⟨⟨(ofLine (b :: older), journalOf b older), ?_⟩, hjournal, halike, hbase⟩
    rw [connectNode, hstatus, hheight]
    exact connect_ofLine_of_connect hv h
  · rw [hstatus] at h
    cases h

namespace Passes

variable {node : TreeNode} {b : Block} {older : List Block}

theorem status_ne (h : Passes params verify flags node b older) : node.status ≠ .invalid := by
  obtain ⟨r, hr⟩ := h
  intro hstatus
  rw [connectNode, hstatus] at hr
  cases hr

theorem connects (h : Passes params verify flags node b older)
    (hheight : node.height = older.length) :
    ((ofLine older).connect b older.length).1 = .ok () := by
  obtain ⟨⟨v', journal⟩, hr⟩ := h
  rw [connectNode, hheight] at hr
  rcases hstatus : node.status
  · rw [hstatus] at hr
    exact (alike_ofLine_of_connect (Alike.refl _) hr).1
  · rw [hstatus] at hr
    exact (alike_ofLine_of_connect (Alike.refl _) hr).1
  · rw [hstatus] at hr
    cases hr

/-- A block that was never tried was accepted by the rules. -/
theorem accepted (h : Passes params verify flags node b older)
    (hheight : node.height = older.length) (hstatus : node.status = .unvalidated) :
    ∃ r, b.connect older.length params (ofLine older) verify flags = .ok r := by
  obtain ⟨r, hr⟩ := h
  rw [connectNode, hstatus, hheight] at hr
  exact ⟨r, hr⟩

end Passes

/-- What nodes owe to the store when they are attached, whatever they spent. -/
inductive AttachedBy : List (Nat × TreeNode) → Batch → Prop
  | nil : AttachedBy [] []
  | cons {ps : List (Nat × TreeNode)} {writes : Batch} (id : Nat) (node : TreeNode)
      (journal : Journal) (rest : AttachedBy ps writes) :
      AttachedBy ((id, node) :: ps) (attachWrites node journal ++ writes)

/-- The first node of a branch breaks a rule, or it is attached and then the others. -/
theorem attach_cons_eq_ok {newest : Block} {v : CoinView} {id : Nat} {node : TreeNode}
    {result : Attached} (h : attach T params verify flags newest v ((id, node) :: ps) = .ok result) :
    (∃ block violation, blockOf T newest node = .ok block ∧
        connectNode params verify flags v node block = .error (.rule violation) ∧
        result = .broken id violation) ∨
      ∃ block u journal more, blockOf T newest node = .ok block ∧
        connectNode params verify flags v node block = .ok (u, journal) ∧
        attach T params verify flags newest u ps = .ok more ∧
        result = match more with
          | .complete view writes => .complete view (attachWrites node journal ++ writes)
          | broken => broken := by
  rw [attach] at h
  obtain ⟨block, hblock, h⟩ := bind_eq_ok.1 h
  rw [mapError_eq_ok] at hblock
  split at h
  · next violation hconnect =>
    obtain rfl := Except.ok.inj h
    exact Or.inl ⟨block, violation, hblock, hconnect, rfl⟩
  · cases h
  · next u journal hconnect =>
    obtain ⟨more, hmore, h⟩ := bind_eq_ok.1 h
    refine Or.inr ⟨block, u, journal, more, hblock, hconnect, hmore, ?_⟩
    rcases more with ⟨view, writes⟩ | ⟨failed, violation⟩
    · exact (Except.ok.inj h).symm
    · exact (Except.ok.inj h).symm

theorem attachedBy_of_attach {newest : Block} {v v' : CoinView} {writes : Batch}
    (h : attach T params verify flags newest v ps = .ok (.complete v' writes)) :
    AttachedBy ps writes ∧ ∀ p ∈ ps, p.2.status ≠ .invalid := by
  induction ps generalizing v writes with
  | nil =>
    rw [attach] at h
    obtain ⟨-, rfl⟩ := Attached.complete.inj (Except.ok.inj h)
    exact ⟨.nil, fun _ h => nomatch h⟩
  | cons p ps ih =>
    obtain ⟨id, node⟩ := p
    rcases attach_cons_eq_ok h with ⟨_, _, -, -, hbroken⟩ |
      ⟨block, u, journal, ⟨view, more⟩ | ⟨_, _⟩, -, hconnect, hmore, heq⟩
    · cases hbroken
    · obtain ⟨rfl, rfl⟩ := Attached.complete.inj heq
      obtain ⟨hwrites, hstatus⟩ := ih hmore
      refine ⟨.cons id node journal hwrites, fun q hq => ?_⟩
      rcases List.mem_cons.1 hq with rfl | hq
      · intro hinvalid
        rw [connectNode, hinvalid] at hconnect
        cases hconnect
      · exact hstatus q hq
    · cases heq

/-- The node at which attaching stops is one of those to attach, and its block breaks a rule. -/
theorem exists_of_attach_broken {newest : Block} {v : CoinView} {failed : Nat}
    {violation : Violation}
    (h : attach T params verify flags newest v ps = .ok (.broken failed violation)) :
    ∃ node b view, (failed, node) ∈ ps ∧
      (T.blocks.insert newest.hash newest)[node.hash]? = some b ∧
      connectNode params verify flags view node b = .error (.rule violation) := by
  induction ps generalizing v with
  | nil => cases h
  | cons p ps ih =>
    obtain ⟨id, node⟩ := p
    rcases attach_cons_eq_ok h with ⟨block, _, hblock, hconnect, hbroken⟩ |
      ⟨block, u, journal, ⟨_, _⟩ | ⟨failed', violation'⟩, -, -, hmore, heq⟩
    · obtain ⟨rfl, rfl⟩ := Attached.broken.inj hbroken
      exact ⟨node, block, v, List.mem_cons_self .., blockOf_eq_ok.1 hblock, hconnect⟩
    · cases heq
    · obtain ⟨rfl, rfl⟩ := Attached.broken.inj heq
      obtain ⟨node', b, view, hmem, hb, hconnect⟩ := ih hmore
      exact ⟨node', b, view, List.mem_cons_of_mem _ hmem, hb, hconnect⟩

/-- A switch is given up at a node of the new branch that is not on the main chain. -/
theorem mem_lineage_of_broken {t : BlockTree} {tip fork i : Nat} {newest : Block} {v : CoinView}
    {failed : Nat} {violation : Violation} (ht : t.Coherent) (hm : t.MainPath)
    (hfork : t.findFork? tip i = some fork)
    (h : attach T params verify flags newest v (t.located (t.pathFrom fork i)) =
      .ok (.broken failed violation)) : failed ∈ t.lineage i ∧ failed ∉ t.lineage tip := by
  obtain ⟨-, hforkNew, hlast⟩ := findFork?_spec ht hm hfork
  obtain ⟨node, -, -, hmem, -⟩ := exists_of_attach_broken h
  have hpath := (mem_located.1 hmem).1
  have habove := mem_lineage_of_mem_pathFrom hforkNew hpath
  -- what is common to both branches ends at the fork
  exact ⟨habove, fun hin =>
    notMem_lineage_of_mem_pathFrom hforkNew hpath (hlast failed hin habove)⟩

/-- What the nodes of a climb owe to the store, besides unspent outputs. -/
def attachedWrites (blocks : Std.ExtTreeMap Digest Block) :
    List Block → List (Nat × TreeNode) → Batch
  | _, [] => []
  | base, (_, node) :: ps =>
    match blocks[node.hash]? with
    | some b => attachWrites node (journalOf b base) ++ attachedWrites blocks (b :: base) ps
    | none => []

/-- All blocks of a climb pass in their places. -/
inductive Passed (params : Params) (verify : Verifier) (flags : AddFlags)
    (blocks : Std.ExtTreeMap Digest Block) : List Block → List (Nat × TreeNode) → Prop
  | nil (base : List Block) : Passed params verify flags blocks base []
  | cons {base : List Block} {ps : List (Nat × TreeNode)} {id : Nat} {node : TreeNode} {b : Block}
      (stored : blocks[node.hash]? = some b) (height : node.height = base.length)
      (passes : Passes params verify flags node b base)
      (rest : Passed params verify flags blocks (b :: base) ps) :
      Passed params verify flags blocks base ((id, node) :: ps)

/-- Each block on the way up passed over the blocks below it. -/
theorem Passed.exists_node (h : Passed params verify flags blocks base ps)
    (hc : Climb blocks base ps top) {b : Block} {older : List Block} (hs : b :: older <:+ top)
    (hlen : base.length ≤ older.length) :
    ∃ p ∈ ps, blocks[p.2.hash]? = some b ∧ p.2.height = older.length ∧
      Passes params verify flags p.2 b older := by
  induction h generalizing top with
  | nil base =>
    cases hc
    have := hs.length_le
    rw [List.length_cons] at this
    omega
  | @cons base ps id node c stored height passes rest ih =>
    cases hc with
    | @cons _ _ _ _ _ c' stored' hash' height' climb =>
      rw [stored] at stored'
      obtain rfl := Option.some.inj stored'
      by_cases hlow : (c :: base).length ≤ older.length
      · obtain ⟨p, hp, hb⟩ := ih climb hs hlow
        exact ⟨p, List.mem_cons_of_mem _ hp, hb⟩
      · rw [List.length_cons] at hlow
        have heq : b :: older = c :: base := by
          refine List.IsSuffix.eq_of_length (List.suffix_of_suffix_length_le hs climb.suffix ?_) ?_
          · simp only [List.length_cons]
            omega
          · simp only [List.length_cons]
            omega
        obtain ⟨rfl, rfl⟩ := List.cons.inj heq
        exact ⟨_, List.mem_cons_self .., stored, height, passes⟩

variable {newest : Block}

/-- Attaching all nodes leads to the upper line, and every block passed. -/
theorem attach_complete
    (hc : Climb (T.blocks.insert newest.hash newest) base ps top) {v v' : CoinView}
    {writes : Batch} (hv : v.Alike (ofLine base))
    (h : attach T params verify flags newest v ps = .ok (.complete v' writes)) :
    Passed params verify flags (T.blocks.insert newest.hash newest) base ps ∧
      v'.Alike (ofLine top) ∧ v'.base = v.base ∧
      writes = attachedWrites (T.blocks.insert newest.hash newest) base ps := by
  induction hc generalizing v writes with
  | nil base =>
    rw [attach] at h
    obtain ⟨rfl, rfl⟩ := Attached.complete.inj (Except.ok.inj h)
    exact ⟨.nil _, hv, rfl, rfl⟩
  | @cons base top ps id node b stored hash height rest ih =>
    rw [attach, blockOf_eq_ok.2 stored] at h
    rcases hn : connectNode params verify flags v node b with (_ | _) | ⟨u, journal⟩
    · simp only [Except.mapError, bind, Except.bind, hn] at h
      cases h
    · simp only [Except.mapError, bind, Except.bind, hn] at h
      cases h
    · obtain ⟨hpasses, rfl, halike, hbase⟩ := connectNode_eq_ok height hv hn
      simp only [Except.mapError, bind, Except.bind, hn] at h
      rcases ha : attach T params verify flags newest u ps with e | (⟨u', more⟩ | ⟨_, _⟩)
      · rw [ha] at h
        cases h
      · rw [ha] at h
        obtain ⟨rfl, rfl⟩ := Attached.complete.inj (Except.ok.inj h)
        obtain ⟨hpassed, halike', hbase', rfl⟩ := ih halike ha
        refine ⟨.cons stored height hpasses hpassed, halike', hbase'.trans hbase, ?_⟩
        rw [attachedWrites, stored]
      · rw [ha] at h
        cases h

/-- Attaching stops at the first node whose block does not pass. -/
theorem attach_broken
    (hc : Climb (T.blocks.insert newest.hash newest) base ps top) {v : CoinView}
    (hv : v.Alike (ofLine base)) {failed : Nat} {violation : Violation}
    (h : attach T params verify flags newest v ps = .ok (.broken failed violation)) :
    ∃ pre node post b mid, ps = pre ++ (failed, node) :: post ∧
      Climb (T.blocks.insert newest.hash newest) base pre mid ∧
      Passed params verify flags (T.blocks.insert newest.hash newest) base pre ∧
      (T.blocks.insert newest.hash newest)[node.hash]? = some b ∧ node.height = mid.length ∧
      ¬ Passes params verify flags node b mid := by
  induction hc generalizing v with
  | nil base => cases h
  | @cons base top ps id node b stored hash height rest ih =>
    rw [attach, blockOf_eq_ok.2 stored] at h
    rcases hn : connectNode params verify flags v node b with (violation' | _) | ⟨u, journal⟩
    · simp only [Except.mapError, bind, Except.bind, hn] at h
      obtain ⟨rfl, rfl⟩ := Attached.broken.inj (Except.ok.inj h)
      refine ⟨[], node, ps, b, base, rfl, .nil _, .nil _, stored, height, ?_⟩
      -- the verdict on the line would be that on the view
      rintro ⟨⟨w', journal⟩, hr⟩
      rw [connectNode] at hr hn
      rcases hstatus : node.status
      · rw [hstatus] at hr hn
        obtain ⟨u, hu, -⟩ := hv.symm.connectBlock hr
        rw [hu] at hn
        cases hn
      · rw [hstatus] at hr hn
        obtain ⟨u, hu, -⟩ := hv.symm.connectBlock hr
        rw [hu] at hn
        cases hn
      · rw [hstatus] at hr
        cases hr
    · simp only [Except.mapError, bind, Except.bind, hn] at h
      cases h
    · obtain ⟨hpasses, rfl, halike, -⟩ := connectNode_eq_ok height hv hn
      simp only [Except.mapError, bind, Except.bind, hn] at h
      rcases ha : attach T params verify flags newest u ps with e | (⟨u', more⟩ | ⟨_, _⟩)
      · rw [ha] at h
        cases h
      · rw [ha] at h
        cases h
      · rw [ha] at h
        obtain ⟨rfl, rfl⟩ := Attached.broken.inj (Except.ok.inj h)
        obtain ⟨pre, node', post, b', mid, rfl, hclimb, hpassed, hb'⟩ := ih halike ha
        exact ⟨(id, node) :: pre, node', post, b', mid, rfl, .cons stored hash height hclimb,
          .cons stored height hpasses hpassed, hb'⟩

/-- Attaching fails through no fault of the engine if every block is well formed. -/
theorem attach_ne_error
    (hc : Climb (T.blocks.insert newest.hash newest) base ps top)
    (hwf : ∀ p ∈ ps, ∀ b, (T.blocks.insert newest.hash newest)[p.2.hash]? = some b → b.WellFormed)
    {v : CoinView} {fault : EngineFault} :
    attach T params verify flags newest v ps ≠ .error fault := by
  induction hc generalizing v with
  | nil base => exact fun h => nomatch h
  | @cons base top ps id node b stored hash height rest ih =>
    intro h
    have hb := hwf _ (List.mem_cons_self ..) b stored
    rw [attach, blockOf_eq_ok.2 stored] at h
    rcases hn : connectNode params verify flags v node b with (violation' | fault') | ⟨u, journal⟩
    · simp only [Except.mapError, bind, Except.bind, hn] at h
      cases h
    · rw [connectNode] at hn
      rcases hstatus : node.status
      · rw [hstatus] at hn
        exact Block.connect_ne_engine hb hn
      · rw [hstatus] at hn
        exact Block.connect_ne_engine hb hn
      · rw [hstatus] at hn
        cases hn
    · simp only [Except.mapError, bind, Except.bind, hn] at h
      rcases ha : attach T params verify flags newest u ps with e | (⟨u', more⟩ | ⟨_, _⟩)
      · rw [ha] at h
        obtain rfl := Except.error.inj h
        exact ih (fun p hp => hwf p (List.mem_cons_of_mem _ hp)) ha
      · rw [ha] at h
        cases h
      · rw [ha] at h
        cases h

end Switch

end PermissionedLedger
