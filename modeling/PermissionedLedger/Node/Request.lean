import PermissionedLedger.Node.Commands

/-!
# Requests

The words of a command line: one command with what belongs to it, and options that
may stand anywhere (`Request.parse`). The value of an option is the next word, or
follows a sign of equality.
-/

namespace PermissionedLedger

open Time (Instant)

/-- A command and what belongs to it. -/
inductive Action where
  /-- begin a chain -/
  | init (network : Network)
  /-- report on the chain -/
  | status
  /-- add the blocks of a file -/
  | importBlocks (file : Path) (isTrusted : Bool)
  /-- report on the configuration -/
  | checkConfig

/-- What is asked of a node. -/
structure Request where
  /-- what all commands are told -/
  options : CommandOptions
  /-- the command -/
  action : Action

/-- The words of a command line, sorted. -/
structure Words where
  /-- what all commands are told -/
  options : CommandOptions := {}
  /-- the network to begin a chain of -/
  network : Option Network := none
  /-- blocks are not to be checked again -/
  isTrusted : Bool := false
  /-- all other words, in order -/
  others : List String := []

namespace Words

/-- Takes over the value of an option. -/
def withOption (w : Words) (name value : String) : Except String Words :=
  match name with
  | "--config" => .ok { w with options := { w.options with config := value } }
  | "--data-dir" => .ok { w with options := { w.options with dataDir := some value } }
  | "--network" => (Network.ofText value).map fun n => { w with network := some n }
  | other => .error s!"unexpected argument {other}"

/-- The name and the value of an option that are one word. -/
def split? (word : String) : Option (String × String) :=
  match word.splitOn "=" with
  | name :: first :: more =>
    if word.startsWith "--" then some (name, String.intercalate "=" (first :: more)) else none
  | _ => none

/-- Sorts one more word. `pending` is an option whose value is to come. -/
def step (w : Words) (pending : Option String) (word : String) :
    Except String (Words × Option String) :=
  match pending, split? word with
  | some name, _ => (w.withOption name word).map fun w => (w, none)
  | none, some (name, value) => (w.withOption name value).map fun w => (w, none)
  | none, none =>
    match word with
    | "--verbose" | "-v" => .ok (w, none)
    | "--trusted" => .ok ({ w with isTrusted := true }, none)
    | "-c" => .ok (w, some "--config")
    | _ =>
      if word.startsWith "-" then .ok (w, some word)
      else .ok ({ w with others := w.others ++ [word] }, none)

/-- Sorts all words. -/
def sort (words : List String) : Except String Words := do
  match ← words.foldlM (fun (w, pending) word => step w pending word) ({}, none) with
  | (w, none) => return w
  | (_, some name) => throw s!"a value is required for {name}"

end Words

/-- The request that a command line makes, or what is wrong with it. -/
def Request.parse (words : List String) : Except String Request := do
  let w ← Words.sort words
  match w.others with
  | ["init"] => return ⟨w.options, .init (w.network.getD .testnet)⟩
  | ["status"] => return ⟨w.options, .status⟩
  | ["import", file] => return ⟨w.options, .importBlocks file w.isTrusted⟩
  | ["check-config"] => return ⟨w.options, .checkConfig⟩
  | _ => .error "usage: init [--network NETWORK] | status | import FILE [--trusted] | check-config"

/-- Does what is asked. -/
def Request.run {m : Type → Type} [Monad m] [Files m] (r : Request) (now : Instant) :
    Command m String :=
  match r.action with
  | .init network => Command.init r.options network
  | .status => Command.status r.options
  | .importBlocks file isTrusted => Command.importBlocks r.options file isTrusted now
  | .checkConfig => Command.checkConfig r.options

end PermissionedLedger
