import Mathlib
import PermissionedLedger.Block.Merkle

/-!
# Merkle roots

Different lists can have one Merkle root without any collision of digests: a level of odd
length pairs its last digest with itself, and nothing tells a leaf from an inner node. This
is all there is to it. Among lists without repetitions, a level determines the one below
(`nextLevel_injective`), so that of two lists with one root one is a level above the other
(`levels_of_root_eq`). Where leaves are digests of messages that are longer or shorter than
two digests, the lists are the same (`root_injective`).

All of this is up to collisions among the messages that are hashed for the two roots
(`Apart`, `treeMessages`).
-/

namespace PermissionedLedger

/-- A function that tells the elements of two lists apart tells the lists apart. -/
theorem eq_of_map_eq {α β : Type} {f : α → β} {xs ys : List α}
    (hinj : ∀ x ∈ xs, ∀ y ∈ ys, f x = f y → x = y) (heq : xs.map f = ys.map f) : xs = ys := by
  induction xs generalizing ys with
  | nil => exact (List.map_eq_nil_iff.1 heq.symm).symm
  | cons x xs ih =>
    obtain ⟨y, ys, rfl, -, -⟩ := List.map_eq_cons_iff.1 heq.symm
    obtain ⟨hfirst, hrest⟩ := List.cons.inj heq
    rw [hinj x (List.mem_cons_self ..) y (List.mem_cons_self ..) hfirst,
      ih (fun x hx y hy => hinj x (List.mem_cons_of_mem _ hx) y (List.mem_cons_of_mem _ hy)) hrest]

/-- Different messages of a list have different digests. -/
def Apart (messages : List Bytes) : Prop :=
  ∀ x ∈ messages, ∀ y ∈ messages, Digest.ofMessage x = Digest.ofMessage y → x = y

theorem Apart.mono {messages others : List Bytes} (h : Apart messages) (hsub : others ⊆ messages) :
    Apart others :=
  fun x hx y hy => h x (hsub hx) y (hsub hy)

namespace Merkle

variable {ds es fs : List Digest}

/-! ## One level -/

theorem nodeHashed_inj {a b c d : Digest} (h : nodeHashed a b = nodeHashed c d) :
    a = c ∧ b = d := by
  obtain ⟨hleft, hright⟩ := List.append_inj h (by simp)
  exact ⟨Digest.toList_inj hleft, Digest.toList_inj hright⟩

/-- What is hashed for the level above. -/
def pairs : List Digest → List Bytes
  | [] => []
  | [last] => [nodeHashed last last]
  | left :: right :: rest => nodeHashed left right :: pairs rest

theorem nextLevel_eq (ds : List Digest) : nextLevel ds = (pairs ds).map .ofMessage := by
  fun_induction pairs ds with
  | case1 => rfl
  | case2 last => rfl
  | case3 left right rest ih =>
    rw [nextLevel, ih]
    rfl

theorem mem_pairs {p : Bytes} (h : p ∈ pairs ds) : ∃ a ∈ ds, ∃ b, p = nodeHashed a b := by
  fun_induction pairs ds with
  | case1 => cases h
  | case2 last => exact ⟨last, List.mem_singleton_self _, last, List.mem_singleton.1 h⟩
  | case3 left right rest ih =>
    rcases List.mem_cons.1 h with rfl | h
    · exact ⟨left, List.mem_cons_self .., right, rfl⟩
    · obtain ⟨a, ha, b, rfl⟩ := ih h
      exact ⟨a, List.mem_cons_of_mem _ (List.mem_cons_of_mem _ ha), b, rfl⟩

theorem length_of_mem_pairs {p : Bytes} (h : p ∈ pairs ds) : p.length = 64 := by
  obtain ⟨a, -, b, rfl⟩ := mem_pairs h
  simp [nodeHashed]

/-- Without repetitions, no pair is hashed twice. -/
theorem pairs_nodup (hd : ds.Nodup) : (pairs ds).Nodup := by
  fun_induction pairs ds with
  | case1 => exact List.nodup_nil
  | case2 last => exact List.nodup_singleton _
  | case3 left right rest ih =>
    obtain ⟨hleft, hd⟩ := List.nodup_cons.1 hd
    obtain ⟨hright, hd⟩ := List.nodup_cons.1 hd
    refine List.nodup_cons.2 ⟨fun hin => ?_, ih hd⟩
    obtain ⟨a, ha, b, heq⟩ := mem_pairs hin
    obtain ⟨rfl, -⟩ := nodeHashed_inj heq
    exact hleft (List.mem_cons_of_mem _ ha)

/-- Without repetitions, a last digest that is paired with itself can be told from two. -/
theorem pairs_injective (hd : ds.Nodup) (he : es.Nodup) (h : pairs ds = pairs es) : ds = es := by
  have hpair : ∀ {a b c : Digest} {rest : List Digest}, (b :: c :: rest).Nodup →
      nodeHashed a a ≠ nodeHashed b c := by
    intro a b c rest hnodup heq
    obtain ⟨rfl, rfl⟩ := nodeHashed_inj heq
    exact (List.nodup_cons.1 hnodup).1 (List.mem_cons_self ..)
  fun_induction pairs ds generalizing es with
  | case1 => rcases es with _ | ⟨e, _ | ⟨e', rest⟩⟩ <;> first | rfl | cases h
  | case2 last =>
    rcases es with _ | ⟨e, _ | ⟨e', rest⟩⟩
    · cases h
    · rw [(nodeHashed_inj (List.cons.inj h).1).1]
    · exact absurd (List.cons.inj h).1 (hpair he)
  | case3 left right rest ih =>
    rcases es with _ | ⟨e, _ | ⟨e', others⟩⟩
    · cases h
    · exact absurd (List.cons.inj h).1.symm (hpair hd)
    · obtain ⟨hfirst, hrest⟩ := List.cons.inj h
      obtain ⟨rfl, rfl⟩ := nodeHashed_inj hfirst
      rw [ih (List.nodup_cons.1 (List.nodup_cons.1 hd).2).2
        (List.nodup_cons.1 (List.nodup_cons.1 he).2).2 hrest]

theorem nextLevel_nodup (hd : ds.Nodup) (h : Apart (pairs ds)) : (nextLevel ds).Nodup := by
  rw [nextLevel_eq]
  exact (pairs_nodup hd).map_on fun x hx y hy => h x hx y hy

/-- Without repetitions and collisions, a level determines the one below. -/
theorem nextLevel_injective (hd : ds.Nodup) (he : es.Nodup) (h : Apart (pairs ds ++ pairs es))
    (heq : nextLevel ds = nextLevel es) : ds = es := by
  rw [nextLevel_eq, nextLevel_eq] at heq
  exact pairs_injective hd he (eq_of_map_eq
    (fun x hx y hy => h x (List.mem_append_left _ hx) y (List.mem_append_right _ hy)) heq)

/-! ## All levels -/

/-- What is hashed for the root. -/
def messages (ds : List Digest) : List Bytes :=
  match ds with
  | [] => []
  | [_] => []
  | a :: b :: rest => pairs (a :: b :: rest) ++ messages (nextLevel (a :: b :: rest))
termination_by ds.length
decreasing_by simp; omega

theorem messages_eq (h : 2 ≤ ds.length) : messages ds = pairs ds ++ messages (nextLevel ds) := by
  rcases ds with _ | ⟨a, _ | ⟨b, rest⟩⟩
  · simp at h
  · simp at h
  · rw [messages]

theorem root_eq (h : 2 ≤ ds.length) : root ds = root (nextLevel ds) := by
  rcases ds with _ | ⟨a, _ | ⟨b, rest⟩⟩
  · simp at h
  · simp at h
  · rw [root]

/-- The second list is a level above the first, or the same. -/
inductive Levels (ds : List Digest) : List Digest → Prop
  | refl : Levels ds ds
  | next {es : List Digest} (below : Levels ds es) (several : 2 ≤ es.length) :
    Levels ds (nextLevel es)

namespace Levels

theorem head (hlength : 2 ≤ ds.length) (h : Levels (nextLevel ds) es) : Levels ds es := by
  induction h with
  | refl => exact .next .refl hlength
  | next _ several ih => exact .next ih several

theorem messages_subset (h : Levels ds es) : messages es ⊆ messages ds := by
  induction h with
  | refl => exact List.Subset.refl _
  | next _ several ih =>
    rw [messages_eq several] at ih
    exact List.Subset.trans (List.subset_append_right ..) ih

/-- What is hashed for the level above is hashed for the root. -/
theorem pairs_subset (h : Levels ds es) (several : 2 ≤ es.length) : pairs es ⊆ messages ds := by
  have hsub := h.messages_subset
  rw [messages_eq several] at hsub
  exact List.Subset.trans (List.subset_append_left ..) hsub

theorem nodup (h : Levels ds es) (hd : ds.Nodup) (hap : Apart (messages ds)) : es.Nodup := by
  induction h with
  | refl => exact hd
  | next below several ih => exact nextLevel_nodup ih (hap.mono (below.pairs_subset several))

/-- If levels are above one another, so are those below them. -/
theorem of_nextLevel (hd : ds.Nodup) (he : es.Nodup) (hap : Apart (messages ds ++ messages es))
    (several : 2 ≤ ds.length) (several' : 2 ≤ es.length)
    (h : Levels (nextLevel ds) (nextLevel es)) : Levels ds es := by
  obtain ⟨fs, hlevels, hfs, hnext⟩ :
      ∃ fs, Levels ds fs ∧ 2 ≤ fs.length ∧ nextLevel fs = nextLevel es := by
    generalize heq : nextLevel es = ns at h
    cases h with
    | refl => exact ⟨ds, .refl, several, rfl⟩
    | @next fs below hfs => exact ⟨fs, .head several below, hfs, rfl⟩
  have hpairs : Apart (pairs fs ++ pairs es) := hap.mono (List.append_subset.2
    ⟨List.Subset.trans (hlevels.pairs_subset hfs) (List.subset_append_left ..),
      List.Subset.trans (refl.pairs_subset several') (List.subset_append_right ..)⟩)
  have hnodup := hlevels.nodup hd (hap.mono (List.subset_append_left ..))
  rwa [nextLevel_injective hnodup he hpairs hnext] at hlevels

end Levels

/-- The root is the level of one digest. -/
theorem levels_root (hne : ds ≠ []) : Levels ds [root ds] := by
  fun_induction root ds with
  | case1 => exact absurd rfl hne
  | case2 d => exact .refl
  | case3 a b rest ih => exact .head (by simp) (ih (by simp [nextLevel]))

/-- Of two lists with one root, one is a level above the other. -/
theorem levels_of_root_eq (hne : ds ≠ []) (hne' : es ≠ []) (hd : ds.Nodup) (he : es.Nodup)
    (hap : Apart (messages ds ++ messages es)) (h : root ds = root es) :
    Levels ds es ∨ Levels es ds := by
  induction ds using root.induct generalizing es with
  | case1 => exact absurd rfl hne
  | case2 d =>
    rw [root] at h
    exact Or.inr (h ▸ levels_root hne')
  | case3 a b rest ih =>
    have several : 2 ≤ (a :: b :: rest).length := by simp
    by_cases several' : 2 ≤ es.length
    · have hsub : messages (nextLevel (a :: b :: rest)) ++ messages (nextLevel es) ⊆
          messages (a :: b :: rest) ++ messages es := List.append_subset.2
        ⟨List.Subset.trans (Levels.next .refl several).messages_subset
            (List.subset_append_left ..),
          List.Subset.trans (Levels.next .refl several').messages_subset
            (List.subset_append_right ..)⟩
      have hnodup := nextLevel_nodup hd (hap.mono (List.Subset.trans
        (Levels.refl.pairs_subset several) (List.subset_append_left ..)))
      have hnodup' := nextLevel_nodup he (hap.mono (List.Subset.trans
        (Levels.refl.pairs_subset several') (List.subset_append_right ..)))
      have hnonempty : nextLevel es ≠ [] := by
        rw [← List.length_pos_iff, length_nextLevel]
        omega
      rw [root_eq several, root_eq several'] at h
      rcases ih (by simp [nextLevel]) hnonempty hnodup hnodup' (hap.mono hsub) h with
        hlevels | hlevels
      · exact Or.inl (.of_nextLevel hd he hap several several' hlevels)
      · refine Or.inr (.of_nextLevel he hd (hap.mono ?_) several' several hlevels)
        exact List.append_subset.2 ⟨List.subset_append_right .., List.subset_append_left ..⟩
    · -- a single digest is the root
      obtain ⟨e, rfl⟩ : ∃ e, es = [e] := by
        rcases es with _ | ⟨e, _ | ⟨e', others⟩⟩
        · exact absurd rfl hne'
        · exact ⟨e, rfl⟩
        · simp at several'
      rw [show root [e] = e by rw [root]] at h
      exact Or.inl (h ▸ levels_root hne)

/-! ## Leaves -/

/-- What is hashed for the root over the digests of some messages, these included. -/
def treeMessages (xs : List Bytes) : List Bytes := xs ++ messages (xs.map .ofMessage)

/-- No level above is a list of leaves. -/
theorem Levels.eq_of_leaves {ys : List Bytes} (h : Levels ds (ys.map .ofMessage)) (hne : ys ≠ [])
    (hleaf : ∀ y ∈ ys, y.length ≠ 64) (hap : Apart (ys ++ messages ds)) :
    ds = ys.map .ofMessage := by
  obtain ⟨y, ys, rfl⟩ := List.exists_cons_of_ne_nil hne
  generalize heq : (y :: ys).map Digest.ofMessage = es at h
  cases h with
  | refl => rfl
  | @next fs below several =>
    rw [nextLevel_eq] at heq
    obtain ⟨p, ps, hp, hfirst, -⟩ := List.map_eq_cons_iff.1 heq.symm
    have hmem : p ∈ pairs fs := hp ▸ List.mem_cons_self ..
    have hsame : p = y := hap p (List.mem_append_right _ (below.pairs_subset several hmem)) y
      (List.mem_append_left _ (List.mem_cons_self ..)) hfirst
    exact absurd (hsame ▸ length_of_mem_pairs hmem) (hleaf y (List.mem_cons_self ..))

/-- Without collisions, the root pins messages with different digests that are not as long as two
digests. -/
theorem root_injective {xs ys : List Bytes} (hx : xs ≠ []) (hy : ys ≠ [])
    (hleaf : ∀ x ∈ xs, x.length ≠ 64) (hleaf' : ∀ y ∈ ys, y.length ≠ 64)
    (hd : (xs.map Digest.ofMessage).Nodup) (he : (ys.map Digest.ofMessage).Nodup)
    (hap : Apart (treeMessages xs ++ treeMessages ys))
    (h : root (xs.map .ofMessage) = root (ys.map .ofMessage)) : xs = ys := by
  have hsub : ∀ {as bs : List Bytes}, as ⊆ treeMessages xs ++ treeMessages ys →
      bs ⊆ treeMessages xs ++ treeMessages ys → Apart (as ++ bs) :=
    fun ha hb => hap.mono (List.append_subset.2 ⟨ha, hb⟩)
  have hxs : xs ⊆ treeMessages xs ++ treeMessages ys :=
    List.Subset.trans (List.subset_append_left ..) (List.subset_append_left ..)
  have hys : ys ⊆ treeMessages xs ++ treeMessages ys :=
    List.Subset.trans (List.subset_append_left ..) (List.subset_append_right ..)
  have hnodes : messages (xs.map .ofMessage) ⊆ treeMessages xs ++ treeMessages ys :=
    List.Subset.trans (List.subset_append_right ..) (List.subset_append_left ..)
  have hnodes' : messages (ys.map .ofMessage) ⊆ treeMessages xs ++ treeMessages ys :=
    List.Subset.trans (List.subset_append_right ..) (List.subset_append_right ..)
  refine eq_of_map_eq (fun x hx y hy => hap x (hxs hx) y (hys hy)) ?_
  rcases levels_of_root_eq (by simpa using hx) (by simpa using hy) hd he (hsub hnodes hnodes') h with
    hlevels | hlevels
  · exact hlevels.eq_of_leaves hy hleaf' (hsub hys hnodes)
  · exact (hlevels.eq_of_leaves hx hleaf (hsub hxs hnodes')).symm

end Merkle

end PermissionedLedger
