import Mathlib
import PermissionedLedger.Wire.Codec

/-!
# The laws of codecs

Every way to build a codec keeps the two laws. A value is read back if its parts are
(`Codec.LawfulAt`), and what is read does not depend on what follows if that holds of the parts
(`Codec.Extends`).

A value is not read back where a number does not fit the bytes that it is written in. So lists
have to be shorter than `2 ^ 64`.
-/

namespace PermissionedLedger.Codec

variable {α β : Type} {c : Codec α} {d : Codec β}

/-! ## Numbers -/

theorem split?_append {n : Nat} {front : Bytes} (h : front.length = n) (rest : Bytes) :
    split? n (front ++ rest) = some (front, rest) := by
  subst h
  rw [split?, if_pos (by simp), List.take_left, List.drop_left]

theorem split?_extends {n : Nat} {bs front rest : Bytes} (h : split? n bs = some (front, rest))
    (more : Bytes) : split? n (bs ++ more) = some (front, rest ++ more) := by
  rw [split?] at h
  split at h
  · next hle =>
    obtain ⟨rfl, rfl⟩ := Prod.mk.inj (Option.some.inj h)
    rw [split?, if_pos (by rw [List.length_append]; omega), List.take_append_of_le_length hle,
      List.drop_append_of_le_length hle]
  · cases h

theorem lawfulAt_number {width n : Nat} (h : n < 256 ^ width) : (number width).LawfulAt n := by
  refine ⟨(Bytes.length_ofNatLE ..).symm, fun rest => ?_⟩
  simp only [number, split?_append (Bytes.length_ofNatLE ..), Option.map_some,
    Bytes.toNatLE_ofNatLE h]

theorem decode_ofNatLE {width n : Nat} (h : n < 256 ^ width) (rest : Bytes) :
    (number width).decode (Bytes.ofNatLE width n ++ rest) = some (n, rest) :=
  (lawfulAt_number h).2 rest

theorem extends_number (width : Nat) : (number width).Extends := by
  intro bs n rest more h
  obtain ⟨⟨front, rest'⟩, hsplit, heq⟩ := Option.map_eq_some_iff.1 h
  obtain ⟨rfl, rfl⟩ := Prod.mk.inj heq
  simp only [number, split?_extends hsplit, Option.map_some]

/-! ## Fields -/

theorem lawfulAt_const (a : α) : (const a).LawfulAt a := ⟨rfl, fun _ => rfl⟩

theorem extends_const (a : α) : (const a).Extends := by
  intro bs b rest more h
  obtain ⟨rfl, rfl⟩ := Prod.mk.inj (Option.some.inj h)
  rfl

theorem LawfulAt.pair {v : α × β} (h : c.LawfulAt v.1) (h' : d.LawfulAt v.2) :
    (c.pair d).LawfulAt v := by
  constructor
  · simp only [Codec.pair, h.1, h'.1, List.length_append]
  · intro rest
    simp only [Codec.pair, List.append_assoc, h.2, h'.2, Option.bind_eq_bind, Option.bind_some]
    rfl

theorem Extends.pair (h : c.Extends) (h' : d.Extends) : (c.pair d).Extends := by
  intro bs v rest more hv
  obtain ⟨⟨a, bs'⟩, ha, hv⟩ := Option.bind_eq_some_iff.1 hv
  obtain ⟨⟨b, bs''⟩, hb, hv⟩ := Option.bind_eq_some_iff.1 hv
  obtain ⟨rfl, rfl⟩ := Prod.mk.inj (Option.some.inj hv)
  simp only [Codec.pair, h _ _ _ more ha, h' _ _ _ more hb, Option.bind_eq_bind,
    Option.bind_some]
  rfl

theorem LawfulAt.convert {of? : α → Option β} {back : β → α} {b : β} (h : c.LawfulAt (back b))
    (hof : of? (back b) = some b) : (c.convert of? back).LawfulAt b := by
  refine ⟨h.1, fun rest => ?_⟩
  simp only [Codec.convert, h.2, hof, Option.bind_eq_bind, Option.bind_some]
  rfl

theorem Extends.convert (h : c.Extends) (of? : α → Option β) (back : β → α) :
    (c.convert of? back).Extends := by
  intro bs b rest more hb
  obtain ⟨⟨a, bs'⟩, ha, hb⟩ := Option.bind_eq_some_iff.1 hb
  obtain ⟨b', hof, hb⟩ := Option.bind_eq_some_iff.1 hb
  obtain ⟨rfl, rfl⟩ := Prod.mk.inj (Option.some.inj hb)
  simp only [Codec.convert, h _ _ _ more ha, hof, Option.bind_eq_bind, Option.bind_some]
  rfl

theorem LawfulAt.map {of : α → β} {back : β → α} {b : β} (h : c.LawfulAt (back b))
    (hof : of (back b) = b) : (c.map of back).LawfulAt b :=
  h.convert (congrArg some hof)

theorem Extends.map (h : c.Extends) (of : α → β) (back : β → α) : (c.map of back).Extends :=
  h.convert _ _

/-! ## Lists -/

theorem decodeMany_flatMap {as : List α} (h : ∀ a ∈ as, c.LawfulAt a) (rest : Bytes) :
    c.decodeMany as.length (as.flatMap c.encode ++ rest) = some (as, rest) := by
  induction as with
  | nil => rfl
  | cons a as ih =>
    obtain ⟨ha, has⟩ := List.forall_mem_cons.1 h
    simp only [List.length_cons, List.flatMap_cons, decodeMany, List.append_assoc, ha.2, ih has,
      Option.bind_eq_bind, Option.bind_some]
    rfl

theorem decodeMany_extends (h : c.Extends) {n : Nat} {bs rest : Bytes} {as : List α}
    (has : c.decodeMany n bs = some (as, rest)) (more : Bytes) :
    c.decodeMany n (bs ++ more) = some (as, rest ++ more) := by
  induction n generalizing bs as with
  | zero =>
    obtain ⟨rfl, rfl⟩ := Prod.mk.inj (Option.some.inj has)
    rfl
  | succ n ih =>
    obtain ⟨⟨a, bs'⟩, ha, has⟩ := Option.bind_eq_some_iff.1 has
    obtain ⟨⟨as', bs''⟩, hmany, has⟩ := Option.bind_eq_some_iff.1 has
    obtain ⟨rfl, rfl⟩ := Prod.mk.inj (Option.some.inj has)
    simp only [decodeMany, h _ _ _ more ha, ih hmany, Option.bind_eq_bind, Option.bind_some]
    rfl

theorem length_flatMap_encode {as : List α} (h : ∀ a ∈ as, c.LawfulAt a) :
    (as.flatMap c.encode).length = (as.map c.size).sum := by
  rw [List.length_flatMap]
  exact congrArg List.sum (List.map_congr_left fun a ha => (h a ha).1.symm)

theorem LawfulAt.list {as : List α} (hcount : as.length < 2 ^ 64)
    (h : ∀ a ∈ as, c.LawfulAt a) : c.list.LawfulAt as := by
  constructor
  · simp only [Codec.list, List.length_append, Bytes.length_ofNatLE, length_flatMap_encode h]
  · intro rest
    have hfits : as.length < 256 ^ 8 := hcount
    simp only [Codec.list, List.append_assoc, decode_ofNatLE hfits, Option.bind_eq_bind,
      Option.bind_some, decodeMany_flatMap h]

theorem Extends.list (h : c.Extends) : c.list.Extends := by
  intro bs as rest more has
  obtain ⟨⟨n, bs'⟩, hn, has⟩ := Option.bind_eq_some_iff.1 has
  simp only [Codec.list, extends_number 8 _ _ _ more hn, Option.bind_eq_bind, Option.bind_some]
  exact decodeMany_extends h has more

theorem lawfulAt_bytes {data : Bytes} (h : data.length < 2 ^ 64) : bytes.LawfulAt data := by
  constructor
  · simp only [bytes, List.length_append, Bytes.length_ofNatLE]
  · intro rest
    have hfits : data.length < 256 ^ 8 := h
    simp only [bytes, List.append_assoc, decode_ofNatLE hfits, Option.bind_eq_bind,
      Option.bind_some, split?_append]

theorem extends_bytes : bytes.Extends := by
  intro bs data rest more h
  obtain ⟨⟨n, bs'⟩, hn, h⟩ := Option.bind_eq_some_iff.1 h
  simp only [bytes, extends_number 8 _ _ _ more hn, Option.bind_eq_bind, Option.bind_some]
  exact split?_extends h more

theorem lawfulAt_vector {n : Nat} (v : Vector UInt8 n) : (vector n).LawfulAt v := by
  refine ⟨v.length_toList.symm, fun rest => ?_⟩
  simp only [vector, split?_append v.length_toList, Bytes.toVector?_toList, Option.bind_eq_bind,
    Option.bind_some]
  rfl

theorem extends_vector (n : Nat) : (vector n).Extends := by
  intro bs v rest more h
  obtain ⟨⟨front, bs'⟩, hsplit, h⟩ := Option.bind_eq_some_iff.1 h
  obtain ⟨w, hw, h⟩ := Option.bind_eq_some_iff.1 h
  obtain ⟨rfl, rfl⟩ := Prod.mk.inj (Option.some.inj h)
  simp only [vector, split?_extends hsplit more, hw, Option.bind_eq_bind, Option.bind_some]
  rfl

/-! ## Texts -/

theorem lawfulAt_text {cs : List Char} (hascii : ∀ c ∈ cs, c.toNat < 0x80)
    (hcount : cs.length < 2 ^ 64) : text.LawfulAt cs :=
  (lawfulAt_bytes ((Utf8.length_encode_ascii hascii).trans_lt hcount)).convert
    (Utf8.decode?_ascii hascii)

theorem extends_text : text.Extends := extends_bytes.convert _ _

/-! ## Alternatives -/

theorem LawfulAt.union {tag : α → Nat} {alternative? : Nat → Option (Codec α)} {a : α} (n : Nat)
    (htag : tag a = n) (hfits : n < 256 ^ 4) (halternative : alternative? n = some c)
    (h : c.LawfulAt a) : (union tag alternative?).LawfulAt a := by
  subst htag
  constructor
  · simp only [Codec.union, halternative, Option.elim_some, List.length_append,
      Bytes.length_ofNatLE, h.1]
  · intro rest
    simp only [Codec.union, halternative, Option.elim_some, List.append_assoc,
      decode_ofNatLE hfits, Option.bind_eq_bind, Option.bind_some, h.2]

theorem Extends.union {tag : α → Nat} {alternative? : Nat → Option (Codec α)}
    (h : ∀ n c, alternative? n = some c → c.Extends) : (union tag alternative?).Extends := by
  intro bs a rest more ha
  obtain ⟨⟨n, bs'⟩, hn, ha⟩ := Option.bind_eq_some_iff.1 ha
  obtain ⟨c, hc, ha⟩ := Option.bind_eq_some_iff.1 ha
  simp only [Codec.union, extends_number 4 _ _ _ more hn, hc, Option.bind_eq_bind,
    Option.bind_some]
  exact h n c hc _ _ _ more ha

/-! ## Words -/

theorem lawfulAt_uint8 (n : UInt8) : uint8.LawfulAt n :=
  (lawfulAt_number n.toNat_lt).map UInt8.ofNat_toNat

theorem lawfulAt_uint32 (n : UInt32) : uint32.LawfulAt n :=
  (lawfulAt_number n.toNat_lt).map UInt32.ofNat_toNat

theorem lawfulAt_uint64 (n : UInt64) : uint64.LawfulAt n :=
  (lawfulAt_number n.toNat_lt).map UInt64.ofNat_toNat

theorem lawfulAt_int64 (n : Int64) : int64.LawfulAt n :=
  (lawfulAt_number n.toBitVec.isLt).map
    (Int64.toBitVec_inj.1 (by rw [Int64.toBitVec_ofNat', BitVec.ofNat_toNat, BitVec.setWidth_eq]))

theorem extends_uint8 : uint8.Extends := (extends_number 1).map _ _

theorem extends_uint32 : uint32.Extends := (extends_number 4).map _ _

theorem extends_uint64 : uint64.Extends := (extends_number 8).map _ _

theorem extends_int64 : int64.Extends := (extends_number 8).map _ _

end PermissionedLedger.Codec
