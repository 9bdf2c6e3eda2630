import PermissionedLedger.Chain.Open
import PermissionedLedger.Chain.Queries
import PermissionedLedger.Node.Config
import PermissionedLedger.Node.Files
import PermissionedLedger.Store.Image

/-!
# Commands

What a node does on request, on any file system: write a configuration and begin a
chain (`init`), report on the chain (`status`), add the blocks of a file to it
(`importBlocks`), and report on a configuration (`checkConfig`). The result is what
is printed.

A chain is kept in one file of its directory, which is written after every command
that changed it, even if the command failed.
-/

namespace PermissionedLedger

open Time (Instant)

/-- Why a command failed. -/
inductive CommandError where
  | configExists (path : Path)
  | noConfig
  | configNotRead (path : Path)
  | configNotParsed (path : Path)
  | config (fault : ConfigFault)
  | directoryNotCreated (path : Path)
  | configNotWritten (path : Path)
  | storeNotOpened (path : Path)
  | storeNotWritten (path : Path)
  | chainNotLoaded (fault : EngineFault)
  | engine (fault : EngineFault)
  | fileNotRead (path : Path)
  | blocksNotDecoded (path : Path)

namespace CommandError

/-- The wording. -/
def message : CommandError → String
  | configExists path =>
    s!"Config already exists at {path}\n" ++
      "Use a different --config path or delete the existing config."
  | noConfig => "No config found. Run 'tessera init' first."
  | configNotRead path => s!"Failed to read config from {path}"
  | configNotParsed path => s!"Failed to parse config from {path}"
  | config fault => fault.message
  | directoryNotCreated path => s!"Failed to create directory {path}"
  | configNotWritten path => s!"Failed to write config to {path}"
  | storeNotOpened path => s!"Failed to open chain store at {path}"
  | storeNotWritten path => s!"Failed to write chain store at {path}"
  | chainNotLoaded _ => "Failed to load chain state"
  | engine fault => fault.message
  | fileNotRead path => s!"Failed to read {path}"
  | blocksNotDecoded path => s!"Failed to decode blocks from {path}"

/-- The failure of the chain behind it, if there is one. -/
def cause? : CommandError → Option EngineFault
  | chainNotLoaded fault | engine fault => some fault
  | _ => none

end CommandError

variable {m : Type → Type} [Monad m] [Files m]

/-- A command on a file system. -/
abbrev Command (m : Type → Type) (α : Type) := ExceptT CommandError m α

/-- A command uses the files that it runs on. -/
instance : Files (Command m) where
  has p := ExceptT.lift (Files.has p)
  read p := ExceptT.lift (Files.read p)
  write p contents := ExceptT.lift (Files.write p contents)
  createDirectory p := ExceptT.lift (Files.createDirectory p)

/-- What all commands are told. -/
structure CommandOptions where
  /-- the configuration file -/
  config : Path := "tessera.toml"
  /-- the directory of the chains, in place of the one configured -/
  dataDir : Option Path := none

namespace Command

/-- Goes on with a value, or fails if there is none. -/
def orFail {α : Type} (a : Option α) (e : CommandError) : Command m α :=
  match a with
  | some a => pure a
  | none => throw e

/-- Goes on if an operation succeeds. -/
def ensure (operation : Command m Bool) (e : CommandError) : Command m Unit := do
  if !(← operation) then throw e

/-- Goes on with a result, or fails for its reason. -/
def ofResult {ε α : Type} (wrap : ε → CommandError) (r : Except ε α) : Command m α :=
  match r with
  | .ok a => pure a
  | .error e => throw (wrap e)

/-- The text of a file, if it is UTF-8. -/
def readText (path : Path) : Command m (Option String) := do
  return ((← Files.read path).bind Utf8.decode?).map String.ofList

/-! ## Configuration -/

/-- The configuration in a file. -/
def readConfig (path : Path) : Command m Config := do
  let text ← orFail (← readText path) (.configNotRead path)
  orFail (Config.ofText? text) (.configNotParsed path)

/-- The configuration in a file, or the default one if there is no such file. -/
def readConfigOrDefault (path : Path) : Command m Config := do
  if ← Files.has path then readConfig path else return {}

/-- The configuration with the directory that a command is told. -/
def overridden (c : Config) (options : CommandOptions) : Config :=
  { c with dataDir := options.dataDir.getD c.dataDir }

/-- The configuration that a chain is opened with. Any failure to read it has the same wording. -/
def loadConfig (options : CommandOptions) : Command m Config :=
  tryCatch (do return overridden (← readConfig options.config) options) fun _ => throw .noConfig

/-- Writes a configuration file and the directory that it is in. -/
def saveConfig (c : Config) (path : Path) : Command m Unit := do
  match path.parent? with
  | some parent =>
    if parent.isEmpty then pure ()
    else ensure (Files.createDirectory parent) (.directoryNotCreated parent)
  | none => pure ()
  ensure (Files.write path (Utf8.encode c.text.toList)) (.configNotWritten path)

/-! ## The chain -/

/-- The file of a chain in its directory. -/
def storeFile (directory : Path) : Path := directory.join "chain.mdb"

/-- The store in a directory, which is created if need be. -/
def openStore (directory : Path) : Command m PersistentStore := do
  ensure (Files.createDirectory directory) (.storeNotOpened directory)
  if ← Files.has (storeFile directory) then
    let file ← orFail (← Files.read (storeFile directory)) (.storeNotOpened directory)
    orFail (PersistentStore.ofImage? file) (.storeNotOpened directory)
  else return {}

/-- Writes the store in a directory if it has changed. -/
def saveStore (directory : Path) (before after : PersistentStore) : Command m Unit := do
  if after.tables ≠ before.tables then
    ensure (Files.write (storeFile directory) after.image) (.storeNotWritten directory)

/-- Opens the chain of a configuration. -/
def openChain (c : Config) : Command m (Chain PersistentStore) := do
  let params ← ofResult .config c.params
  let before ← openStore c.storePath
  let (capacity, lifetime) ← ofResult .config c.orphanLimits
  let (result, store) :=
    Chain.openStore params strictVerifier (.ofLimits capacity lifetime) before
  saveStore c.storePath before store
  ofResult .chainNotLoaded result

end Command

/-! ## Adding blocks -/

/-- How many blocks of a file came to what. -/
structure ImportSummary where
  /-- became the tip -/
  mainChain : Nat := 0
  /-- were accepted, but not as the tip -/
  sideChain : Nat := 0
  /-- wait for their parent -/
  orphans : Nat := 0
  /-- broke a rule -/
  rejected : Nat := 0
  deriving DecidableEq

/-- Counts one more outcome. -/
def ImportSummary.add (s : ImportSummary) : Outcome → ImportSummary
  | .accepted true => { s with mainChain := s.mainChain + 1 }
  | .accepted false => { s with sideChain := s.sideChain + 1 }
  | .orphaned => { s with orphans := s.orphans + 1 }
  | .rejected _ => { s with rejected := s.rejected + 1 }

/-- Adds blocks one after another, up to the first failure of the engine. -/
def Chain.processAll {σ : Type} [ChainStore σ] (flags : AddFlags) (now : Instant) :
    Chain σ → ImportSummary → List Block → Except EngineFault ImportSummary × Chain σ
  | c, summary, [] => (.ok summary, c)
  | c, summary, block :: blocks =>
    match c.process block flags now with
    | (.ok outcome, c) => processAll flags now c (summary.add outcome) blocks
    | (.error fault, c) => (.error fault, c)

namespace Command

/-! ## What is printed -/

/-- Lines of text, each with its end. -/
def printed (lines : List String) : String := String.join (lines.map (· ++ "\n"))

/-- The report of `init`. -/
def initReport (options : CommandOptions) (c : Config) (best : BestState) : String :=
  printed [
    "", s!"[{c.network.name}] Node configuration created.",
    s!"Config saved to: {options.config}",
    s!"Chain store: {c.storePath}",
    s!"Genesis: {best.hash.text}",
    "", "Next steps:",
    "  1. Run 'tessera import <blocks file>' to load blocks",
    "  2. Run 'tessera status' to inspect the chain"]

/-- The report of `importBlocks`. -/
def importReport (file : Path) (s : ImportSummary) (best : BestState) : String :=
  printed [
    s!"Imported {file}:",
    s!"  Main chain: {s.mainChain}",
    s!"  Side chain: {s.sideChain}",
    s!"  Orphans: {s.orphans}",
    s!"  Rejected: {s.rejected}",
    s!"Best tip: {best.hash.text} at height {best.height}"]

/-- The keys of a role as `status` shows them. -/
def roleLines (keys : KeySets) (role : Role) : List String :=
  s!"  {role.name} ({(keys.keys role).size}):" ::
    (keys.keys role).toList.map fun key => s!"    {key.text}"

/-- The latest checkpoint as `status` shows it. -/
def checkpointText : Option Checkpoint → String
  | some c => s!"{c.hash.text} at height {c.height}"
  | none => "none passed"

/-- The report of `status`. -/
def statusReport (c : Config) (best : BestState) (nextBits : UInt32)
    (checkpoint : Option Checkpoint) : String :=
  printed <| [
    "", "=== Tessera Status ===",
    "", "Chain:",
    s!"  Network: {c.network.name}",
    s!"  Height: {best.height}",
    s!"  Tip hash: {best.hash.text}",
    s!"  Tip time: {best.time.text}",
    s!"  Median time: {best.medianTime.text}",
    s!"  Bits: {Hex.ofWord best.bits}",
    s!"  Next bits: {Hex.ofWord nextBits}",
    s!"  Total work: {Hex.ofNat best.work}",
    s!"  Tip transactions: {best.transactionCount}",
    s!"  Tip size: {best.blockSize} bytes",
    s!"  Latest checkpoint: {checkpointText checkpoint}",
    "", "Admin keys:"] ++ Role.all.flatMap (roleLines best.keys) ++ [""]

/-- The rule of retargeting as `checkConfig` shows it. -/
def retargetText (s : Work.Schedule) : String :=
  if s.isFixed then "disabled" else s!"every {s.interval} blocks"

/-- The report of `checkConfig`. -/
def configReport (options : CommandOptions) (c : Config) (params : Params) : String :=
  printed <| [
    s!"Config: {options.config}",
    s!"  Network: {params.network.name}",
    s!"  Data dir: {c.dataDir}",
    s!"  Genesis: {params.genesisHash.text}",
    s!"  Pow limit bits: {Hex.ofWord params.pow.limitBits}",
    s!"  Retargeting: {retargetText params.pow}",
    s!"  Coinbase maturity: {params.coinbaseMaturity}",
    s!"  Admin signature threshold: {params.signatureThreshold}",
    s!"  Checkpoints: {params.checkpoints.length}"] ++
    params.checkpoints.map (fun p => s!"    {p.height} {p.hash.text}") ++
    [s!"  Orphan pool: {c.maxOrphans} blocks, {c.orphanExpiry}s expiry"]

/-! ## The commands -/

/-- Writes a configuration for a network, otherwise the default one, and begins its chain. -/
def init (options : CommandOptions) (network : Network) : Command m String := do
  if ← Files.has options.config then throw (.configExists options.config)
  let c := overridden { network } options
  saveConfig c options.config
  let chain ← openChain c
  return initReport options c chain.best

/-- Reports on the best chain and the keys in force. -/
def status (options : CommandOptions) : Command m String := do
  let c ← loadConfig options
  let chain ← openChain c
  let nextBits ← ofResult (fun cause => .engine (.inconsistent cause)) chain.nextBits
  return statusReport c chain.best nextBits chain.checkpoint?

/-- Adds the blocks of a file to the chain, in the order of the file. Blocks of a trusted file are
not checked again. -/
def importBlocks (options : CommandOptions) (file : Path) (isTrusted : Bool) (now : Instant) :
    Command m String := do
  let c ← loadConfig options
  let chain ← openChain c
  let bytes ← orFail (← Files.read file) (.fileNotRead file)
  let blocks ← orFail (Wire.readBlocks? bytes) (.blocksNotDecoded file)
  let (result, after) := chain.processAll { fastAdd := isTrusted } now {} blocks
  saveStore c.storePath chain.store after.store
  let summary ← ofResult .engine result
  return importReport file summary after.best

/-- Reports on a configuration. -/
def checkConfig (options : CommandOptions) : Command m String := do
  let c := overridden (← readConfigOrDefault options.config) options
  let params ← ofResult .config c.params
  let _ ← ofResult .config c.orphanLimits
  return configReport options c params

end Command

end PermissionedLedger
