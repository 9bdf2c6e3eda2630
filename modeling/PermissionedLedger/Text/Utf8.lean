import PermissionedLedger.Bytes.Basic

/-!
# UTF-8

The strict form: no overlong sequence, no surrogate, nothing above the last code
point. `decode?_ascii` and `length_encode_ascii` say that ASCII text takes one byte a character and
reads back.
-/

namespace PermissionedLedger.Utf8

/-- The bytes of a character. -/
def encodeChar (c : Char) : Bytes :=
  let n := c.toNat
  if n < 0x80 then [UInt8.ofNat n]
  else if n < 0x800 then [UInt8.ofNat (0xc0 + n / 64), UInt8.ofNat (0x80 + n % 64)]
  else if n < 0x10000 then
    [UInt8.ofNat (0xe0 + n / 4096), UInt8.ofNat (0x80 + n / 64 % 64), UInt8.ofNat (0x80 + n % 64)]
  else
    [UInt8.ofNat (0xf0 + n / 262144), UInt8.ofNat (0x80 + n / 4096 % 64),
     UInt8.ofNat (0x80 + n / 64 % 64), UInt8.ofNat (0x80 + n % 64)]

/-- The bytes of a text. -/
def encode (cs : List Char) : Bytes := cs.flatMap encodeChar

/-- The character of a code point, unless it is a surrogate or out of range. -/
def char? (n : Nat) : Option Char :=
  if n.isValidChar then some (Char.ofNat n) else none

/-- The six bits of a continuation byte. -/
def continuation? (b : UInt8) : Option Nat :=
  if 0x80 ≤ b.toNat ∧ b.toNat < 0xc0 then some (b.toNat - 0x80) else none

/-- The code point of a sequence with the given leading bits, unless a shorter sequence would do. -/
def sequence? (lead least : Nat) (tail : Bytes) : Option Char := do
  let bits ← tail.mapM continuation?
  let n := bits.foldl (fun acc six => 64 * acc + six) lead
  if least ≤ n then char? n else none

/-- The text that the bytes spell. -/
def decode? : Bytes → Option (List Char)
  | [] => some []
  | b :: rest =>
    if b.toNat < 0x80 then (decode? rest).map (Char.ofNat b.toNat :: ·)
    else if b.toNat < 0xc0 then none
    else if b.toNat < 0xe0 then
      match rest with
      | b2 :: rest => do
        let c ← sequence? (b.toNat - 0xc0) 0x80 [b2]
        return c :: (← decode? rest)
      | _ => none
    else if b.toNat < 0xf0 then
      match rest with
      | b2 :: b3 :: rest => do
        let c ← sequence? (b.toNat - 0xe0) 0x800 [b2, b3]
        return c :: (← decode? rest)
      | _ => none
    else if b.toNat < 0xf8 then
      match rest with
      | b2 :: b3 :: b4 :: rest => do
        let c ← sequence? (b.toNat - 0xf0) 0x10000 [b2, b3, b4]
        return c :: (← decode? rest)
      | _ => none
    else none

theorem decode?_ascii {cs : List Char} (h : ∀ c ∈ cs, c.toNat < 0x80) :
    decode? (encode cs) = some cs := by
  induction cs with
  | nil => simp [encode, decode?]
  | cons c cs ih =>
    have hc := h c (List.mem_cons_self ..)
    have hlt : c.toNat < 256 := Nat.lt_trans hc (by decide)
    have hb : (UInt8.ofNat c.toNat).toNat = c.toNat := by
      rw [UInt8.toNat_ofNat']
      exact Nat.mod_eq_of_lt hlt
    have hrest : decode? (cs.flatMap encodeChar) = some cs :=
      ih fun c' h' => h c' (List.mem_cons_of_mem _ h')
    have henc : encodeChar c = [UInt8.ofNat c.toNat] := by simp only [encodeChar, if_pos hc]
    rw [encode, List.flatMap_cons, henc, List.singleton_append]
    unfold decode?
    simp only [hb, if_pos hc, hrest, Option.map_some, Char.ofNat_toNat]

theorem length_encode_ascii {cs : List Char} (h : ∀ c ∈ cs, c.toNat < 0x80) :
    (encode cs).length = cs.length := by
  induction cs with
  | nil => rfl
  | cons c cs ih =>
    have hc := h c (List.mem_cons_self ..)
    have hrest : (cs.flatMap encodeChar).length = cs.length :=
      ih fun c' h' => h c' (List.mem_cons_of_mem _ h')
    have henc : encodeChar c = [UInt8.ofNat c.toNat] := by simp only [encodeChar, if_pos hc]
    simp only [encode, List.flatMap_cons, henc, List.length_append, List.length_cons,
      List.length_nil, hrest]
    omega

end PermissionedLedger.Utf8
