import PermissionedLedger.Block.Basic

/-!
# What a chain stores

Six tables hold a chain: blocks and tree nodes on every branch; the unspent outputs
of the best chain and, for each of its blocks, a journal of what it spent; the key
sets where they differ from the parent's; and the best tip.

A store changes by a *batch* of writes only. `Tables.write` is the effect of one
write on the tables, whatever they hold, and `Tables.writeAll` that of a batch.
-/

namespace PermissionedLedger

/-- An unspent output, with what is needed to judge its spending. -/
structure Coin where
  /-- the output -/
  output : TxOutput
  /-- height of the block that created it -/
  height : Nat
  /-- whether a coinbase created it -/
  isCoinbase : Bool
  deriving DecidableEq

/-- A spent output as it was before, so that spending it can be undone. -/
structure SpentCoin where
  /-- what was spent -/
  outPoint : OutPoint
  /-- its coin before -/
  coin : Coin
  deriving DecidableEq

/-- The outputs a block spent, in order. -/
abbrev Journal := List SpentCoin

/-- The unspent outputs of a chain. -/
abbrev CoinMap := Std.ExtTreeMap OutPoint Coin

/-- How far a block has been validated. -/
inductive BlockStatus where
  /-- passed the checks of its place in the tree -/
  | unvalidated
  /-- was part of the best chain -/
  | valid
  /-- failed, or descends from a block that did -/
  | invalid
  deriving DecidableEq, Inhabited

namespace BlockStatus

/-- All statuses. -/
def all : List BlockStatus := [.unvalidated, .valid, .invalid]

/-- The status as it is reported. -/
def name : BlockStatus → String
  | .unvalidated => "Unvalidated"
  | .valid => "Valid"
  | .invalid => "Invalid"

/-- The position of the status among all. -/
def tag : BlockStatus → Nat
  | .unvalidated => 0
  | .valid => 1
  | .invalid => 2

/-- Whether the block can still become part of the best chain. -/
def isUsable (s : BlockStatus) : Bool := s ≠ .invalid

end BlockStatus

/-- A node of the block tree as it is stored. -/
structure NodeRecord where
  /-- digest of the block -/
  hash : Digest
  /-- its header -/
  header : Header
  /-- its height -/
  height : Nat
  /-- its status -/
  status : BlockStatus
  deriving DecidableEq

/-- One write to a store. -/
inductive Write where
  /-- store a block -/
  | putBlock (block : Block)
  /-- store a node -/
  | putNode (node : NodeRecord)
  /-- change the status of a stored node -/
  | setStatus (hash : Digest) (status : BlockStatus)
  /-- add or replace an unspent output -/
  | putCoin (outPoint : OutPoint) (coin : Coin)
  /-- remove an unspent output -/
  | deleteCoin (outPoint : OutPoint)
  /-- record what a block spent -/
  | putJournal (hash : Digest) (spent : Journal)
  /-- drop the journal of a block -/
  | deleteJournal (hash : Digest)
  /-- record the keys in force after a block -/
  | putKeys (hash : Digest) (keys : KeySets)
  /-- move the best tip -/
  | setTip (hash : Digest)
  deriving DecidableEq

/-- Writes that are committed together, in order. -/
abbrev Batch := List Write

/-- The contents of a store. -/
structure Tables where
  /-- best tip, none in an empty store -/
  tip : Option Digest := none
  /-- blocks by digest -/
  blocks : Std.ExtTreeMap Digest Block := ∅
  /-- tree nodes by digest -/
  nodes : Std.ExtTreeMap Digest NodeRecord := ∅
  /-- unspent outputs of the best chain -/
  coins : CoinMap := ∅
  /-- journals of the blocks of the best chain -/
  journals : Std.ExtTreeMap Digest Journal := ∅
  /-- key sets after the blocks that changed them -/
  keys : Std.ExtTreeMap Digest KeySets := ∅
  deriving DecidableEq, Inhabited

namespace Tables

/-- The effect of one write. A status for an unknown node has none. -/
def write (t : Tables) : Write → Tables
  | .putBlock block => { t with blocks := t.blocks.insert block.hash block }
  | .putNode node => { t with nodes := t.nodes.insert node.hash node }
  | .setStatus hash status =>
    match t.nodes[hash]? with
    | some node => { t with nodes := t.nodes.insert hash { node with status } }
    | none => t
  | .putCoin outPoint coin => { t with coins := t.coins.insert outPoint coin }
  | .deleteCoin outPoint => { t with coins := t.coins.erase outPoint }
  | .putJournal hash spent => { t with journals := t.journals.insert hash spent }
  | .deleteJournal hash => { t with journals := t.journals.erase hash }
  | .putKeys hash keys => { t with keys := t.keys.insert hash keys }
  | .setTip hash => { t with tip := some hash }

/-- The effect of a batch: its writes one after another. -/
def writeAll (t : Tables) (batch : Batch) : Tables := batch.foldl write t

@[simp] theorem writeAll_nil (t : Tables) : t.writeAll [] = t := rfl

@[simp] theorem writeAll_cons (t : Tables) (w : Write) (batch : Batch) :
    t.writeAll (w :: batch) = (t.write w).writeAll batch := rfl

theorem writeAll_append (t : Tables) (a b : Batch) :
    t.writeAll (a ++ b) = (t.writeAll a).writeAll b := List.foldl_append ..

end Tables

end PermissionedLedger
