import Mathlib
import PermissionedLedger.Proofs.Coins.Verdict

/-!
# Coins along a line of blocks

A line is a list of blocks, each over its parent, the newest first; the height of a
block is the number of those below it. `CoinView.ofLine` is what there is to spend
after a line, and `CoinView.journalOf` what its newest block spent.

* A property `Throughout` a line holds of each of its blocks over those below. It is
  defined for lists of any kind.
* A block *fits* a line (`Block.Fits`) if it can be connected there without replacing
  an output. Where all blocks fit, connecting and disconnecting are inverse to each
  other (`alike_ofLine_of_connect`, `disconnect_ofLine`).
-/

namespace PermissionedLedger

/-! ## Properties of all blocks of a line -/

section Throughout

variable {α : Type} {P Q : α → List α → Prop} {a : α} {older line : List α}

/-- Every element of a line has a property over the elements below it. -/
def Throughout (P : α → List α → Prop) (line : List α) : Prop :=
  ∀ a older, a :: older <:+ line → P a older

namespace Throughout

theorem nil : Throughout P [] := by
  intro a older h
  have := List.suffix_nil.1 h
  cases this

theorem cons_iff : Throughout P (a :: older) ↔ P a older ∧ Throughout P older := by
  constructor
  · intro h
    exact ⟨h a older (List.suffix_refl _), fun c rest hc => h c rest (hc.trans (List.suffix_cons ..))⟩
  · rintro ⟨ha, holder⟩ c rest hc
    rcases List.suffix_cons_iff.1 hc with heq | hc
    · obtain ⟨rfl, rfl⟩ := List.cons.inj heq
      exact ha
    · exact holder c rest hc

/-- What holds throughout a line holds throughout what lies below one of its elements. -/
theorem of_suffix {line' : List α} (h : Throughout P line) (hs : line' <:+ line) :
    Throughout P line' :=
  fun a older ha => h a older (ha.trans hs)

theorem imp (h : Throughout P line) (himp : ∀ a older, P a older → Q a older) :
    Throughout Q line :=
  fun a older ha => himp a older (h a older ha)

end Throughout

end Throughout

variable {b : Block} {older line : List Block}

/-! ## What there is to spend -/

namespace CoinView

/-- The outputs to spend after a line. -/
def ofLine : List Block → CoinView
  | [] => ⟨∅, ∅⟩
  | b :: older => ((ofLine older).connect b older.length).2.1

/-- What a block spends over the blocks below it. -/
def journalOf (b : Block) (older : List Block) : Journal :=
  ((ofLine older).connect b older.length).2.2

theorem connect_ofLine (h : ((ofLine older).connect b older.length).1 = .ok ()) :
    (ofLine older).connect b older.length = (.ok (), ofLine (b :: older), journalOf b older) :=
  Prod.ext h rfl

end CoinView

/-- A block can be connected over the blocks below it, without replacing an output that can be
spent. -/
structure Block.Fits (b : Block) (older : List Block) : Prop where
  /-- everything it spends is there -/
  connects : ((CoinView.ofLine older).connect b older.length).1 = .ok ()
  /-- nothing it creates is there -/
  fresh : CoinView.Fresh older.length (CoinView.ofLine older) b.transactions

namespace CoinView

variable {v w : CoinView} {params : Params} {verify : Verifier} {flags : AddFlags}

/-- On a view that shows what can be spent after a line, a block that passes leads to one that shows
what can be spent after it as well. -/
theorem alike_ofLine_of_connect (hv : v.Alike (ofLine older)) {v' : CoinView} {journal : Journal}
    (h : b.connect older.length params v verify flags = .ok (v', journal)) :
    ((ofLine older).connect b older.length).1 = .ok () ∧ journal = journalOf b older ∧
      v'.Alike (ofLine (b :: older)) ∧ v'.base = v.base := by
  have hconnect := Block.connect_of_connect_eq_ok h
  obtain ⟨w', hw', halike⟩ := hv.connectAll hconnect
  have hw' : (ofLine older).connect b older.length = (.ok (), w', journal) := hw'
  refine ⟨by rw [hw'], by rw [journalOf, hw'], ?_, base_of_connectAll hconnect⟩
  rw [ofLine, hw']
  exact halike

/-- Verdicts on a view that shows what can be spent after a line are those of the line itself. -/
theorem connect_ofLine_of_connect (hv : v.Alike (ofLine older)) {v' : CoinView} {journal : Journal}
    (h : b.connect older.length params v verify flags = .ok (v', journal)) :
    b.connect older.length params (ofLine older) verify flags =
      .ok (ofLine (b :: older), journalOf b older) := by
  obtain ⟨w', hw', -⟩ := hv.connectBlock h
  have hconnect := connect_ofLine (by rw [Block.connect_of_connect_eq_ok hw'])
  rw [Block.connect_of_connect_eq_ok hw'] at hconnect
  obtain ⟨-, heq⟩ := Prod.mk.inj hconnect
  rw [hw', heq]

/-- A block that fits is undone by its journal. -/
theorem disconnect_ofLine (hb : b.Fits older) (hw : w.Alike (ofLine (b :: older))) :
    ∃ u, w.disconnect b (journalOf b older) = (.ok (), u) ∧ u.Alike (ofLine older) ∧
      u.base = w.base := by
  obtain ⟨u, hu, halike⟩ := disconnect_of_connect (connect_ofLine hb.connects) hb.fresh hw
  refine ⟨u, hu, halike, ?_⟩
  have hbase := base_disconnect w b (journalOf b older)
  rw [hu] at hbase
  exact hbase

/-- A block that fits passes again when it is trusted. -/
theorem connect_trusted_of_fits (hb : b.Fits older) (hv : v.Alike (ofLine older))
    (hflags : flags.fastAdd = true) :
    ∃ v', b.connect older.length params v verify flags = .ok (v', journalOf b older) ∧
      v'.Alike (ofLine (b :: older)) := by
  obtain ⟨v', hv', halike⟩ := hv.symm.connectAll (connect_ofLine hb.connects)
  exact ⟨v', (Block.connect_eq_ok_of_trusted hflags).2 hv', halike.symm⟩

end CoinView

end PermissionedLedger
