import PermissionedLedger.Hash.Digest
import PermissionedLedger.Work.Compact

/-!
# Difficulty over time

The target changes once every interval of blocks, in proportion to the time that
the interval took. One change moves it by a factor of four at most, and never
above the limit of the network (`retarget`).

`easiest` bounds from above where any number of such changes can lead in a given
time. `check` is the proof-of-work rule itself.
-/

namespace PermissionedLedger.Work

-- powers are those of the core library, whatever else is imported
attribute [local instance (high)] instPowNat

/-- The factor by which one change may move the target. -/
def maxFactor : Nat := 4

/-- The constants that govern difficulty. -/
structure Schedule where
  /-- the easiest target permitted -/
  limit : Nat
  /-- how long one interval should take, in seconds -/
  timespan : Int64
  /-- how long one block should take, in seconds -/
  spacing : Int64
  /-- the target never changes -/
  isFixed : Bool
  /-- the limit is a target -/
  limit_lt : limit < bound
  deriving DecidableEq

namespace Schedule

/-- The number of blocks of an interval. -/
def interval (s : Schedule) : Nat :=
  (max ((s.timespan.toInt).tdiv (max s.spacing.toInt 1)) 1).toNat

/-- The compact form of the easiest target permitted. -/
def limitBits (s : Schedule) : UInt32 := ofTarget s.limit

/-- The shortest time that an interval counts for. -/
def minTimespan (s : Schedule) : Int := s.timespan.toInt.tdiv maxFactor

/-- The longest time that an interval counts for, as a signed 64-bit word. -/
def maxTimespan (s : Schedule) : Int := (s.timespan.toInt * maxFactor).bmod (2 ^ (64 : Nat))

/-- Whether the block at a height starts a new interval. -/
def isRetargetHeight (s : Schedule) (height : Nat) : Bool :=
  !s.isFixed && 0 < height && height % s.interval = 0

/-- The compact target of the first block of an interval, from that of the block before it and
from the time between the first and last blocks of the interval that has ended. -/
def retarget (s : Schedule) (lastBits : UInt32) (timespan : Int) : UInt32 :=
  let counted :=
    if timespan < s.minTimespan then s.minTimespan
    else if s.maxTimespan < timespan then s.maxTimespan
    else timespan
  let old := (target? lastBits).getD s.limit
  let scaled := old * counted.toNat / (max s.timespan.toInt 1).toNat
  ofTarget (min scaled s.limit)

/-- Eases a target by the largest factor once for every `step + 1` seconds of the time remaining,
begun ones included, up to the limit. -/
def ease (limit step target : Nat) : (remaining : Nat) → Nat
  | 0 => target
  | remaining + 1 =>
    if limit ≤ target then target
    else
      let next := target * maxFactor
      ease limit step (if bound ≤ next then limit else next) (remaining - step)
termination_by remaining => remaining

/-- The easiest compact target that a block can carry a number of seconds after one with the
given target. -/
def easiest (s : Schedule) (bits : UInt32) (seconds : Int) : UInt32 :=
  if s.isFixed then bits
  else
    let start := (target? bits).getD s.limit
    let step := (max s.maxTimespan 1).toNat - 1
    ofTarget (min (ease s.limit step start seconds.toNat) s.limit)

end Schedule

/-- Why a digest does not prove work. -/
inductive Fault where
  /-- the target is not positive, or easier than permitted -/
  | targetOutOfRange (bits : UInt32)
  /-- the digest is above the target -/
  | highHash (bits : UInt32)
  deriving DecidableEq

/-- The wording of a fault. -/
def Fault.message : Fault → String
  | .targetOutOfRange bits =>
    s!"Target of bits {Hex.ofWord bits} is not positive or exceeds the pow limit"
  | .highHash bits => s!"Block hash is higher than the target of bits {Hex.ofWord bits}"

/-- The target of a compact form, if it is positive and no easier than permitted. -/
def permitted? (bits : UInt32) (limit : Nat) : Option Nat :=
  (target? bits).filter fun target => target ≠ 0 ∧ target ≤ limit

/-- The proof-of-work rule: the target is permitted and the digest does not exceed it. -/
def check (hash : Digest) (bits : UInt32) (limit : Nat) : Except Fault Unit :=
  match permitted? bits limit with
  | none => .error (.targetOutOfRange bits)
  | some target => if target < hash.value then .error (.highHash bits) else .ok ()

end PermissionedLedger.Work
