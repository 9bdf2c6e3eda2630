import PermissionedLedger.Bytes.Basic

/-!
# The twisted Edwards curve of Ed25519

Points on `-x² + y² = 1 + d x² y²` over the field of order `2^255 - 19`. A field
element is a natural number below `fieldOrder`; every operation reduces its
result. Points are kept in extended coordinates (`x = X/Z`, `y = Y/Z`,
`T = XY/Z`), for which one addition law covers all cases because `d` is not a
square.

A point is written as the bytes of `y` with the parity of `x` in the top bit.
`Point.ofBytes?` reads that form back: it ignores multiples of the field order
in `y`, and refuses a `y` for which no `x` exists.
-/

namespace PermissionedLedger.Edwards

-- powers are those of the core library, whatever else is imported
attribute [local instance (high)] instPowNat

/-- The order of the field. -/
def fieldOrder : Nat := 2 ^ (255 : Nat) - 19

/-- The order of the subgroup that the base point generates. -/
def groupOrder : Nat := 2 ^ (252 : Nat) + 27742317777372353535851937790883648493

/-- The curve constant `d = -121665 / 121666`. -/
def curveD : Nat := 37095705934669439343138083508754565189542113879843219016388785533085940283555

/-- A square root of `-1`. -/
def rootOfMinusOne : Nat :=
  19681161376707505956807079304988542015446066515923890162744021073123829784752

/-- Difference in the field, of reduced arguments. -/
def sub (a b : Nat) : Nat := (a + (fieldOrder - b)) % fieldOrder

/-- Product in the field. -/
def mul (a b : Nat) : Nat := a * b % fieldOrder

/-- The bits of a number below `2 ^ width`, most significant first. -/
def bits : (width n : Nat) → List Bool
  | 0, _ => []
  | w + 1, n => n.testBit w :: bits w n

/-- Power in the field, for exponents below `2 ^ 256`. -/
def pow (a e : Nat) : Nat :=
  (bits 256 e).foldl (fun acc bit => if bit then mul (mul acc acc) a else mul acc acc) 1

/-- Inverse in the field; zero has no inverse and stays zero. -/
def inv (a : Nat) : Nat := pow a (fieldOrder - 2)

/-- A point in extended coordinates. -/
structure Point where
  (X Y Z T : Nat)

namespace Point

/-- The neutral point `(0, 1)`. -/
def neutral : Point := ⟨0, 1, 1, 0⟩

/-- The point with these affine coordinates. -/
def ofAffine (x y : Nat) : Point := ⟨x, y, 1, mul x y⟩

/-- The base point; its `y` is `4/5`. -/
def base : Point :=
  ofAffine 15112221349535400772501151409588531511454012693041857206046113283949847762202
    46316835694926478169428394003475163141307993866256225615783033603165251855960

/-- The negative of a point. -/
def neg (p : Point) : Point := ⟨sub 0 p.X, p.Y, p.Z, sub 0 p.T⟩

/-- Sum of two points. -/
def add (p q : Point) : Point :=
  let a := mul (sub p.Y p.X) (sub q.Y q.X)
  let b := mul (p.Y + p.X) (q.Y + q.X)
  let c := mul (mul (2 * curveD) p.T) q.T
  let d := mul (2 * p.Z) q.Z
  let e := sub b a
  let f := sub d c
  let g := d + c
  let h := b + a
  ⟨mul e f, mul g h, mul f g, mul e h⟩

/-- Twice a point. -/
def double (p : Point) : Point :=
  let a := mul p.X p.X
  let b := mul p.Y p.Y
  let c := mul (2 * p.Z) p.Z
  let e := sub (mul (p.X + p.Y) (p.X + p.Y)) ((a + b) % fieldOrder)
  let g := sub b a
  let f := sub g c
  let h := sub 0 ((a + b) % fieldOrder)
  ⟨mul e f, mul g h, mul f g, mul e h⟩

/-- The sum of `m` times `p` and `n` times `q`, both multiples below `2 ^ 256`. -/
def linear (m : Nat) (p : Point) (n : Nat) (q : Point) : Point :=
  let pq := p.add q
  (List.zip (bits 256 m) (bits 256 n)).foldl (fun acc (i, j) =>
    let twice := acc.double
    match i, j with
    | true, true => twice.add pq
    | true, false => twice.add p
    | false, true => twice.add q
    | false, false => twice) neutral

/-- A multiple of a point, for factors below `2 ^ 256`. -/
def smul (n : Nat) (p : Point) : Point :=
  (bits 256 n).foldl (fun acc bit => if bit then acc.double.add p else acc.double) neutral

/-- Whether this is the neutral point. -/
def isNeutral (p : Point) : Bool := p.X % fieldOrder == 0 && p.Y % fieldOrder == p.Z % fieldOrder

/-- Whether eight times the point is neutral. -/
def isSmallOrder (p : Point) : Bool := p.double.double.double.isNeutral

/-- The written form: `y`, with the parity of `x` in the top bit. -/
def toBytes (p : Point) : Bytes :=
  let w := inv p.Z
  let x := mul p.X w
  let y := mul p.Y w
  Bytes.ofNatLE 32 (y + (x % 2) * 2 ^ (255 : Nat))

/-- The even square root of `u / v`, if that is a square. -/
def sqrtRatio? (u v : Nat) : Option Nat :=
  let v3 := mul (mul v v) v
  let v7 := mul (mul v3 v3) v
  let r := mul (mul u v3) (pow (mul u v7) ((fieldOrder - 5) / 8))
  let check := mul v (mul r r)
  let root? :=
    if check = u then some r
    else if check = sub 0 u then some (mul r rootOfMinusOne)
    else none
  root?.map fun x => if x % 2 = 1 then sub 0 x else x

/-- The point written by thirty-two bytes. -/
def ofBytes? (bs : Bytes) : Option Point := do
  let n := Bytes.toNatLE bs
  let y := n % 2 ^ (255 : Nat) % fieldOrder
  let yy := mul y y
  let x ← sqrtRatio? (sub yy 1) (mul curveD yy + 1)
  let signed := if n.testBit 255 then sub 0 x else x
  return ofAffine signed y

end Point

end PermissionedLedger.Edwards
