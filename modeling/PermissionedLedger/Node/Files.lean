import PermissionedLedger.Bytes.Basic
import PermissionedLedger.Node.Path
import Std.Data.ExtTreeMap

/-!
# Files

What a node needs of a file system is a class of four operations, so that commands
run on any of them. `Disk` is a file system that is held in memory.
-/

namespace PermissionedLedger

/-- A place with files. Operations that can fail say whether they did. -/
class Files (m : Type → Type) where
  /-- whether a path names anything -/
  has : Path → m Bool
  /-- the contents of a file -/
  read : Path → m (Option Bytes)
  /-- creates or replaces a file in an existing directory -/
  write : Path → Bytes → m Bool
  /-- creates a directory with all that it is in -/
  createDirectory : Path → m Bool

/-- What a name on a disk stands for. -/
inductive DiskEntry where
  /-- a file and its contents -/
  | file (contents : Bytes)
  /-- a directory -/
  | directory
  deriving DecidableEq

/-- Where something is on a disk: the names on the way to it, with neither dots nor slashes. -/
abbrev Location := List String

/-- A file system in memory, seen from a directory that cannot be removed. -/
structure Disk where
  /-- everything on it by its location -/
  entries : Std.ExtTreeMap Location DiskEntry := ∅

namespace Disk

instance : Inhabited Disk := ⟨{}⟩

/-- What is at a location. -/
def entry? (d : Disk) : Location → Option DiskEntry
  | [] | ["/"] => some .directory
  | l => d.entries[l]?

/-- Whether a location is that of a directory. -/
def isDirectory (d : Disk) (l : Location) : Bool := d.entry? l = some .directory

/-- The location that a component of a path leads to. -/
def go (l : Location) (component : String) : Location :=
  if component = "." then l else if component = ".." then l.dropLast else l ++ [component]

/-- The location that components lead to, through directories only. Nothing need be there. -/
def locate (d : Disk) : Location → List String → Option Location
  | l, [] => some l
  | l, component :: rest => if d.isDirectory l then d.locate (go l component) rest else none

/-- The location and the entry of a path. -/
def find? (d : Disk) (p : Path) : Option (Location × DiskEntry) := do
  let l ← if p.isEmpty then none else d.locate [] p.components
  let entry ← d.entry? l
  if p.namesDirectory && entry ≠ .directory then none else return (l, entry)

/-- Whether a path names anything. -/
def has (d : Disk) (p : Path) : Bool := (d.find? p).isSome

/-- The contents of a file. -/
def read (d : Disk) (p : Path) : Option Bytes :=
  match d.find? p with
  | some (_, .file contents) => some contents
  | _ => none

/-- Creates or replaces a file in an existing directory. -/
def write (d : Disk) (p : Path) (contents : Bytes) : Option Disk := do
  let l ← if p.isEmpty || p.namesDirectory then none else d.locate [] p.components
  if d.isDirectory l then none
  else return { d with entries := d.entries.insert l (.file contents) }

/-- Creates the directories on the way that components lead. -/
def createWay (d : Disk) : Location → List String → Option Disk
  | l, [] => if d.isDirectory l then some d else none
  | l, component :: rest =>
    let next := go l component
    match d.entry? next with
    | some .directory => d.createWay next rest
    | some (.file _) => none
    | none => createWay { d with entries := d.entries.insert next .directory } next rest

/-- Creates a directory with all that it is in. -/
def createDirectory (d : Disk) (p : Path) : Option Disk := d.createWay [] p.components

/-- The rest of a location below another. -/
def below? : Location → Location → Option Location
  | [], l => some l
  | a :: as, b :: bs => if a = b then below? as bs else none
  | _ :: _, [] => none

/-- Moves a file or a directory with all that is in it. What was at the new place is gone. -/
def move (d : Disk) (source target : Path) : Option Disk := do
  let (l, _) ← d.find? source
  let l' ← d.locate [] target.components
  let kept := d.entries.toList.filter fun (at', _) => (below? l' at').isNone
  return ⟨.ofList (kept.map fun (at', entry) =>
    match below? l at' with
    | some rest => (l' ++ rest, entry)
    | none => (at', entry))⟩

/-- Replaces the disk by a new one, if there is one. -/
def replace (new? : Option Disk) : StateM Disk Bool :=
  match new? with
  | some d => do set d; return true
  | none => return false

instance : Files (StateM Disk) where
  has p := do return (← get).has p
  read p := do return (← get).read p
  write p contents := do replace ((← get).write p contents)
  createDirectory p := do replace ((← get).createDirectory p)

end Disk

end PermissionedLedger
