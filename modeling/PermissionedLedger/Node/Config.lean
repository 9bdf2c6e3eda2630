import PermissionedLedger.Network.Profiles
import PermissionedLedger.Node.Path
import PermissionedLedger.Toml.Syntax

/-!
# Configuration

What a node is told in its configuration file: the network, where the chain is kept,
further checkpoints, limits on orphans, and how much to log. Everything has a
default.

The sections `chain` and `logging` are normally tables. A section may as well be an
array of its values, in the order in which they are written, and a date counts as a
section without values. Unknown names are ignored.
-/

namespace PermissionedLedger

/-- A checkpoint as it is configured. -/
structure PinnedHash where
  /-- pinned height -/
  height : Nat
  /-- digits of the digest required there -/
  hash : String
  deriving DecidableEq

/-- The configuration of a node. -/
structure Config where
  /-- the network -/
  network : Network := .testnet
  /-- directory of the chains -/
  dataDir : Path := "tessera-data"
  /-- checkpoints besides those of the network -/
  checkpoints : List PinnedHash := []
  /-- number of orphans that are held -/
  maxOrphans : Nat := 100
  /-- seconds for which an orphan is held -/
  orphanExpiry : Nat := 60 * 60
  /-- level of logging -/
  level : String := "info"
  deriving DecidableEq

/-- Why a configuration that can be read cannot be used. -/
inductive ConfigFault where
  /-- the hash of a checkpoint is not a string of hexadecimal digit pairs -/
  | checkpointDigits (height : Nat)
  /-- the hash of a checkpoint is not that of a digest -/
  | checkpointLength (height : Nat)
  /-- orphans are to be held for too long -/
  | orphanExpiry (seconds : Nat)
  deriving DecidableEq

/-- The longest time for which orphans may be held, thirty days. -/
def maxOrphanExpiry : Nat := 30 * 24 * 60 * 60

/-- The wording. -/
def ConfigFault.message : ConfigFault → String
  | .checkpointDigits height => s!"Invalid checkpoint hash at height {height}"
  | .checkpointLength height => s!"Checkpoint hash at height {height} must be 32 bytes"
  | .orphanExpiry seconds =>
    s!"orphan_expiry_secs = {seconds} is out of range (at most {maxOrphanExpiry})"

/-! ## Reading -/

namespace Toml.Value

/-- The text of a string. -/
def text? : Value → Option String
  | .string s => some s
  | _ => none

/-- A number that is not negative. -/
def nat? : Value → Option Nat
  | .integer n => if 0 ≤ n then some n.toNat else none
  | _ => none

/-- The items of an array. -/
def items? : Value → Option (List Value)
  | .array vs => some vs
  | _ => none

/-- Whether this is a table or an array, and empty. -/
def isEmptyCollection : Value → Bool
  | .array vs => vs.isEmpty
  | .table entries => entries.isEmpty
  | _ => false

/-- The values of a section in the order of the given names. -/
def section? (names : List String) : Value → Option (List (Option Value))
  | .table entries => some (names.map fun name => entries.lookup name)
  | .array vs => some ((List.range names.length).map fun i => vs[i]?)
  | .moment _ => some (names.map fun _ => none)
  | _ => none

/-- A network: its name, or a table whose only name it is and whose value is empty. -/
def network? : Value → Option Network
  | .string s => Network.ofName? s
  | .table [(name, v)] => if v.isEmptyCollection then Network.ofName? name else none
  | _ => none

/-- A checkpoint. -/
def checkpoint? (v : Value) : Option PinnedHash := do
  match ← v.section? ["height", "hash"] with
  | [some height, some hash] => return ⟨← height.nat?, ← hash.text?⟩
  | _ => none

end Toml.Value

namespace Config

/-- What a reader makes of a value, or the default without one. -/
def orDefault {α : Type} (read : Toml.Value → Option α) (default : α) : Option Toml.Value → Option α
  | some v => read v
  | none => some default

/-- Takes over what the section `chain` says. -/
def withChain (c : Config) (v : Toml.Value) : Option Config := do
  match ← v.section? ["checkpoints", "max_orphans", "orphan_expiry_secs"] with
  | [checkpoints, maxOrphans, orphanExpiry] =>
    return { c with
      checkpoints := ← orDefault (fun v => v.items?.bind (·.mapM Toml.Value.checkpoint?))
        c.checkpoints checkpoints
      maxOrphans := ← orDefault Toml.Value.nat? c.maxOrphans maxOrphans
      orphanExpiry := ← orDefault Toml.Value.nat? c.orphanExpiry orphanExpiry }
  | _ => none

/-- Takes over what the section `logging` says. -/
def withLogging (c : Config) (v : Toml.Value) : Option Config := do
  match ← v.section? ["level"] with
  | [level] => return { c with level := ← orDefault Toml.Value.text? c.level level }
  | _ => none

/-- The configuration that a table says. -/
def ofTable? (t : Toml.Table) : Option Config := do
  let c : Config := {}
  let c : Config :=
    { c with
      network := ← orDefault Toml.Value.network? c.network (t.lookup "network")
      dataDir := ← orDefault Toml.Value.text? c.dataDir (t.lookup "data_dir") }
  let c ← orDefault c.withChain c (t.lookup "chain")
  orDefault c.withLogging c (t.lookup "logging")

/-- The configuration that a file says. -/
def ofText? (text : String) : Option Config := (Toml.parse? text).bind ofTable?

/-! ## Writing -/

/-- A line that gives a text to a name. -/
def textLine (name text : String) : String :=
  s!"{name} = {String.ofList (Toml.Strings.write text.toList)}\n"

/-- A line that gives a number to a name. -/
def natLine (name : String) (n : Nat) : String := s!"{name} = {n}\n"

/-- The lines of a checkpoint. -/
def checkpointLines (p : PinnedHash) : String :=
  "\n[[chain.checkpoints]]\n" ++ natLine "height" p.height ++ textLine "hash" p.hash

/-- The file of a configuration. Every value is written out, be it the default or not. -/
def text (c : Config) : String :=
  textLine "network" c.network.name ++ textLine "data_dir" c.dataDir ++
    "\n[chain]\n" ++ (if c.checkpoints = [] then "checkpoints = []\n" else "") ++
    natLine "max_orphans" c.maxOrphans ++ natLine "orphan_expiry_secs" c.orphanExpiry ++
    String.join (c.checkpoints.map checkpointLines) ++
    "\n[logging]\n" ++ textLine "level" c.level

/-! ## Use -/

/-- The checkpoint that is meant. -/
def PinnedHash.toCheckpoint (p : PinnedHash) : Except ConfigFault Checkpoint :=
  match Hex.toBytes? p.hash with
  | none => .error (.checkpointDigits p.height)
  | some bytes =>
    match Digest.ofBytes? bytes with
    | none => .error (.checkpointLength p.height)
    | some hash => .ok ⟨p.height, hash⟩

/-- The parameters of the network, with the further checkpoints. -/
def params (c : Config) : Except ConfigFault Params :=
  (c.checkpoints.mapM PinnedHash.toCheckpoint).map c.network.params.withCheckpoints

/-- The number of orphans that are held, and for how many seconds. -/
def orphanLimits (c : Config) : Except ConfigFault (Nat × Nat) :=
  if c.orphanExpiry ≤ maxOrphanExpiry then .ok (c.maxOrphans, c.orphanExpiry)
  else .error (.orphanExpiry c.orphanExpiry)

/-- The directory of the chain. -/
def storePath (c : Config) : Path := ((c.dataDir.join c.network.name).join "chain")

end Config

end PermissionedLedger
