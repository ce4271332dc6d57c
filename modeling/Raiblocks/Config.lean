import Raiblocks.AccountTexts
import Raiblocks.Kit.Named
import Raiblocks.Kit.Trials
import Raiblocks.Numerals

set_option autoImplicit false

namespace Rai

open Kit

-- A property tree: a text and named subtrees in their order. No name used here contains a dot.
inductive PropertyTree where
  | node (data : Text) (members : List (String × PropertyTree))

namespace PropertyTree

def data : PropertyTree → Text
  | node data _ => data

def members : PropertyTree → List (String × PropertyTree)
  | node _ members => members

def empty : PropertyTree := node [] []

def getChild (tree : PropertyTree) (name : String) : Option PropertyTree := tree.members.lookup name

def get (tree : PropertyTree) (name : String) : Option Text := (tree.getChild name).map data

def setChild (tree : PropertyTree) (name : String) (child : PropertyTree) : PropertyTree :=
  node tree.data (Named.change name (fun _ => child) tree.members)

-- A subtree that is there keeps its own members.
def put (tree : PropertyTree) (name : String) (text : Text) : PropertyTree :=
  node tree.data (Named.change name (fun child => node text (child.elim [] members)) tree.members)

-- All members of the name are removed.
def erase (tree : PropertyTree) (name : String) : PropertyTree := node tree.data (Named.without name tree.members)

def addChild (tree : PropertyTree) (name : String) (child : PropertyTree) : PropertyTree :=
  node tree.data (tree.members ++ [(name, child)])

def listed (entries : List Text) : PropertyTree := node [] (entries.map fun text => ("", node text []))

variable (tree child : PropertyTree) (name other : String) (text : Text)

@[simp] theorem child_set : (tree.setChild name child).getChild other = if name = other then some child else tree.getChild other :=
  Named.lookup_change name other (fun _ => child) tree.members

@[simp] theorem child_erase : (tree.erase name).getChild other = if name = other then none else tree.getChild other :=
  Named.lookup_without name other tree.members

theorem child_put : (tree.put name text).getChild other =
    if name = other then some (node text ((tree.getChild name).elim [] members)) else tree.getChild other :=
  Named.lookup_change name other _ tree.members

@[simp] theorem child_put_other (different : name ≠ other) : (tree.put name text).getChild other = tree.getChild other := by
  rw [child_put, if_neg different]

@[simp] theorem child_add : (tree.addChild name child).getChild other =
    (tree.getChild other).or (if name = other then some child else none) := by
  rw [getChild, addChild, members, List.lookup_append, Named.lookup_cons]
  rfl

@[simp] theorem get_put : (tree.put name text).get other = if name = other then some text else tree.get other := by
  rw [get, child_put]
  split <;> rfl

@[simp] theorem get_set : (tree.setChild name child).get other = if name = other then some child.data else tree.get other := by
  rw [get, child_set]
  split <;> rfl

@[simp] theorem get_add :
    (tree.addChild name child).get other = (tree.get other).or (if name = other then some child.data else none) := by
  rw [get, child_add, get]
  split <;> cases tree.getChild other <;> rfl

end PropertyTree

def flagText (value : Bool) : Text := if value then "true".toList else "false".toList

-- What the configuration takes from boost besides: the extraction of a flag and of a `uintmax_t` from a text, and the texts of
-- addresses.
structure ConfigTexts (Address : Type) extends Texts where
  readFlag : Text → Option Bool
  readSize : Text → Option (BitVec 64)
  readAddress : Text → Option Address
  addressText : Address → Text
  flag_read : ∀ value, readFlag (flagText value) = some value
  size_read : ∀ text number, Radix.dec.read text = some number → text ≠ [] → number < 2 ^ 64 →
    readSize text = some (BitVec.ofNat 64 number)

def plainConfigTexts (texts : Texts) : ConfigTexts Text where
  toTexts := texts
  readFlag := fun text => if text = flagText true then some true else if text = flagText false then some false else none
  readSize := fun text => (Radix.dec.read text).map (BitVec.ofNat 64)
  readAddress := some
  addressText := id
  flag_read := by decide
  size_read := by
    intro text number read _ _
    rw [read]
    rfl

variable {Address : Type}

-- A throw within is caught and is an error like the others.
def parseAddressPort (texts : ConfigTexts Address) (text : Text) : Option (Address × BitVec 16) :=
  match rfind ':' text with
  | none => none
  | some portPosition =>
      if portPosition > 0 then
        match parsePort (text.drop (portPosition + 1)) with
        | .ok (false, port) => (texts.readAddress (text.take portPosition)).map fun address => (address, port)
        | _ => none
      else none

structure Loading (σ : Type) where
  object : σ
  upgraded : Bool
  tree : PropertyTree

abbrev Loader (σ α : Type) := Trial Thrown (Loading σ) α

namespace Loader

variable {σ : Type}

def text (name : String) : Loader σ Text := Trial.observe (fun s => s.tree.get name) .runtimeError

def child (name : String) : Loader σ PropertyTree := Trial.observe (fun s => s.tree.getChild name) .runtimeError

def current : Loader σ σ := Trial.observe (fun s => some s.object) .runtimeError

def store (change : σ → σ) : Loader σ Unit := Trial.assign fun s => { s with object := change s.object }

def amend (change : PropertyTree → PropertyTree) : Loader σ Unit := Trial.assign fun s => { s with tree := change s.tree }

-- A tree without a version is of the first version, and is given an empty list of work peers if it has none. The logging
-- tree is treated the same way.
def unversioned (tree : PropertyTree) : PropertyTree :=
  let tree := tree.put "version" "1".toList
  if (tree.getChild "work_peers").isSome then tree else tree.addChild "work_peers" .empty

def statedVersion : Loader σ Text := ExceptT.mk fun s => match s.tree.get "version" with
  | some version => .ok (.ok version, s)
  | none => .ok (.ok "1".toList, { s with tree := unversioned s.tree, upgraded := true })

-- The number of `stoull` is narrowed to an `unsigned`.
def upgrade (upgradeJson : Nat → Loader σ Bool) : Loader σ Unit := do
  let version ← statedVersion
  let number ← Trial.tried (stoull version)
  let upgraded ← upgradeJson (number.1 % 2 ^ 32)
  Trial.assign fun s => { s with upgraded := s.upgraded || upgraded }

end Loader

section Logging

structure Logging where
  ledgerLogging : Bool
  ledgerDuplicateLogging : Bool
  voteLogging : Bool
  networkLogging : Bool
  networkMessageLogging : Bool
  networkPublishLogging : Bool
  networkPacketLogging : Bool
  networkKeepaliveLogging : Bool
  nodeLifetimeTracing : Bool
  insufficientWorkLogging : Bool
  logRpc : Bool
  bulkPullLogging : Bool
  workGenerationTime : Bool
  logToCerr : Bool
  maxSize : BitVec 64
deriving DecidableEq, Repr

structure LoggingFlag where
  name : String
  value : Logging → Bool
  set : Logging → Bool → Logging

def loggingFlags : List LoggingFlag := [
  ⟨"ledger", fun l => l.ledgerLogging, fun l value => { l with ledgerLogging := value }⟩,
  ⟨"ledger_duplicate", fun l => l.ledgerDuplicateLogging, fun l value => { l with ledgerDuplicateLogging := value }⟩,
  ⟨"vote", fun l => l.voteLogging, fun l value => { l with voteLogging := value }⟩,
  ⟨"network", fun l => l.networkLogging, fun l value => { l with networkLogging := value }⟩,
  ⟨"network_message", fun l => l.networkMessageLogging, fun l value => { l with networkMessageLogging := value }⟩,
  ⟨"network_publish", fun l => l.networkPublishLogging, fun l value => { l with networkPublishLogging := value }⟩,
  ⟨"network_packet", fun l => l.networkPacketLogging, fun l value => { l with networkPacketLogging := value }⟩,
  ⟨"network_keepalive", fun l => l.networkKeepaliveLogging, fun l value => { l with networkKeepaliveLogging := value }⟩,
  ⟨"node_lifetime_tracing", fun l => l.nodeLifetimeTracing, fun l value => { l with nodeLifetimeTracing := value }⟩,
  ⟨"insufficient_work", fun l => l.insufficientWorkLogging, fun l value => { l with insufficientWorkLogging := value }⟩,
  ⟨"log_rpc", fun l => l.logRpc, fun l value => { l with logRpc := value }⟩,
  ⟨"bulk_pull", fun l => l.bulkPullLogging, fun l value => { l with bulkPullLogging := value }⟩,
  ⟨"work_generation_time", fun l => l.workGenerationTime, fun l value => { l with workGenerationTime := value }⟩,
  ⟨"log_to_cerr", fun l => l.logToCerr, fun l value => { l with logToCerr := value }⟩]

namespace Logging

def initial : Logging :=
  ⟨false, false, false, true, false, false, false, false, false, true, true, false, true, false, BitVec.ofNat 64 (16 * 1024 * 1024)⟩

def serializeJson (logging : Logging) (tree : PropertyTree) : PropertyTree :=
  let tree := tree.put "version" "2".toList
  let tree := loggingFlags.foldl (fun tree flag => tree.put flag.name (flagText (flag.value logging))) tree
  tree.put "max_size" (decimalText logging.maxSize.toNat)

def upgradeJson : Nat → Loader Logging Bool
  | 1 => do
      let logging ← Loader.current
      Loader.amend fun tree => (tree.put "vote" (flagText logging.voteLogging)).put "version" "2".toList
      pure true
  | 2 => pure false
  | _ => throw .runtimeError

variable (texts : ConfigTexts Address)

def loadFlag (flag : LoggingFlag) : Loader Logging Unit := do
  let value ← Trial.observe (fun s => (s.tree.get flag.name).bind texts.readFlag) .runtimeError
  Loader.store fun logging => flag.set logging value

def deserializeJson : Loader Logging Bool := Trial.catching .runtimeError true do
  Loader.upgrade upgradeJson
  loggingFlags.forM (loadFlag texts)
  let maxSize ← Trial.observe (fun s => (s.tree.get "max_size").bind texts.readSize) .runtimeError
  Loader.store fun logging => { logging with maxSize := maxSize }
  pure false

end Logging

end Logging

structure NodeConfig (Address : Type) where
  peeringPort : BitVec 16
  logging : Logging
  workPeers : List (Address × BitVec 16)
  preconfiguredPeers : List Text
  preconfiguredRepresentatives : List Account
  bootstrapFractionNumerator : BitVec 32
  receiveMinimum : Amount
  inactiveSupply : Amount
  passwordFanout : BitVec 32
  ioThreads : BitVec 32
  workThreads : BitVec 32
  enableVoting : Bool
  bootstrapConnections : BitVec 32
  callbackAddress : Text
  callbackPort : BitVec 16
  callbackTarget : Text
  lmdbMaxDbs : Int

namespace NodeConfig

-- `hardwareConcurrency` is what the standard library reports.
def initial (network : Network) (hardwareConcurrency : BitVec 32) (peeringPort : BitVec 16) (logging : Logging) :
    NodeConfig Address where
  peeringPort := peeringPort
  logging := logging
  workPeers := []
  preconfiguredPeers := match network with
    | .test => []
    | .beta => ["rai.raiblocks.net".toList]
    | .live => ["rai.raiblocks.net".toList]
  preconfiguredRepresentatives := match network with
    | .test => [genesisAccount .test]
    | .beta => [0x59750C057F42806F40C5D9EAA1E0263E9DB48FE385BD0172BFC573BD37EEC4A7,
        0x8B05C9B160DE9B006FA27DD6A368D7CA122A2EE7537C308CF22EFD3ABF5B36C3,
        0x91D51BF05F02698EBB4649FB06D1BBFD2E4AE2579660E8D784A002D9C0CB1BD2,
        0xCB35ED23D47E1A16667EDE415CD4CD05961481D7D23A43958FAE81FC12FA49FF]
    | .live => [0xA30E0A32ED41C8607AA9212843392E853FCBCB4E7CB194E35C94F07F91DE59EF,
        0x67556D31DDFC2A440BF6147501449B4CB9572278D034EE686A6BEE29851681DF,
        0x5C2FBB148E006A8E8BA7A75DD86C9FE00C83F5FFDBFD76EAA09531071436B6AF,
        0xAE7AC63990DAAAF2A69BF11C913B928844BF5012355456F2F164166464024B29,
        0xBD6267D6ECD8038327D2BCC0850BDF8F56EC0414912207E81BCF90DFAC8A4AAA,
        0x2399A083C600AA0572F5E36247D978FCFC840405F8D4B6D33161C0066A55F431,
        0x2298FAB7C61058E77EA554CB93EDEEDA0692CBFCC540AB213B2836B29029E23A,
        0x3FE80B4BC842E82C1C18ABFEEC47EA989E63953BC82AC411F304D13833D52A56]
  bootstrapFractionNumerator := 1
  receiveMinimum := xrbRatio
  inactiveSupply := 0
  passwordFanout := 1024
  ioThreads := if 4 < hardwareConcurrency then hardwareConcurrency else 4
  workThreads := if 4 < hardwareConcurrency then hardwareConcurrency else 4
  enableVoting := true
  bootstrapConnections := 16
  callbackAddress := []
  callbackPort := 0
  callbackTarget := []
  lmdbMaxDbs := 128

variable (texts : ConfigTexts Address)

def workPeerText (peer : Address × BitVec 16) : Text := texts.addressText peer.1 ++ ':' :: decimalText peer.2.toNat

def serializeJson (config : NodeConfig Address) (tree : PropertyTree) : PropertyTree :=
  let tree := tree.put "version" "8".toList
  let tree := tree.put "peering_port" (decimalText config.peeringPort.toNat)
  let tree := tree.put "bootstrap_fraction_numerator" (decimalText config.bootstrapFractionNumerator.toNat)
  let tree := tree.put "receive_minimum" (UInt128Union.encodeDec texts.toTexts config.receiveMinimum)
  let tree := tree.addChild "logging" (config.logging.serializeJson .empty)
  let tree := tree.addChild "work_peers" (.listed (config.workPeers.map (workPeerText texts)))
  let tree := tree.addChild "preconfigured_peers" (.listed config.preconfiguredPeers)
  let tree := tree.addChild "preconfigured_representatives"
    (.listed (config.preconfiguredRepresentatives.map (encodeAccount texts.toTexts)))
  let tree := tree.put "inactive_supply" (UInt128Union.encodeDec texts.toTexts config.inactiveSupply)
  let tree := tree.put "password_fanout" (decimalText config.passwordFanout.toNat)
  let tree := tree.put "io_threads" (decimalText config.ioThreads.toNat)
  let tree := tree.put "work_threads" (decimalText config.workThreads.toNat)
  let tree := tree.put "enable_voting" (flagText config.enableVoting)
  let tree := tree.put "bootstrap_connections" (decimalText config.bootstrapConnections.toNat)
  let tree := tree.put "callback_address" config.callbackAddress
  let tree := tree.put "callback_port" (decimalText config.callbackPort.toNat)
  let tree := tree.put "callback_target" config.callbackTarget
  tree.put "lmdb_max_dbs" (integerText config.lmdbMaxDbs)

-- The representatives of the first version are decoded and encoded again; an error is not looked at. `uninit` is what the
-- account of each turn holds before.
def convertRepresentatives (uninit : Nat → Account) : Nat → List (String × PropertyTree) → Except Fault (List Text)
  | _, [] => .ok []
  | position, entry :: rest => do
      let decoded ← decodeAccountInto texts.toTexts (uninit position) entry.2.data
      let converted ← convertRepresentatives uninit (position + 1) rest
      .ok (encodeAccount texts.toTexts decoded.2 :: converted)

def setVersion (tree : PropertyTree) (version : String) : PropertyTree := (tree.erase "version").put "version" version.toList

variable (uninit : Nat → Account)

def fromVersion1 : Loader (NodeConfig Address) Unit := do
  let representatives ← Loader.child "preconfigured_representatives"
  let converted ← Trial.called (convertRepresentatives texts uninit 0 representatives.members)
  Loader.amend fun tree =>
    let tree := (tree.erase "preconfigured_representatives").addChild "preconfigured_representatives" (.listed converted)
    setVersion tree "2"

def fromVersion2 : Loader (NodeConfig Address) Unit := do
  let config ← Loader.current
  Loader.amend fun tree =>
    let tree := tree.put "inactive_supply" (UInt128Union.encodeDec texts.toTexts 0)
    let tree := tree.put "password_fanout" (decimalText 1024)
    let tree := tree.put "io_threads" (decimalText config.ioThreads.toNat)
    let tree := tree.put "work_threads" (decimalText config.workThreads.toNat)
    setVersion tree "3"

-- Versions 3 and 4 both write the receive minimum anew.
def renewMinimum (version : String) : Loader (NodeConfig Address) Unit := Loader.amend fun tree =>
  setVersion ((tree.erase "receive_minimum").put "receive_minimum" (decimalText xrbRatio.toNat)) version

def fromVersion3 : Loader (NodeConfig Address) Unit := renewMinimum "4"

def fromVersion4 : Loader (NodeConfig Address) Unit := renewMinimum "5"

def fromVersion5 : Loader (NodeConfig Address) Unit := do
  let config ← Loader.current
  Loader.amend fun tree =>
    let tree := tree.put "enable_voting" (flagText config.enableVoting)
    let tree := ((tree.erase "packet_delay_microseconds").erase "rebroadcast_delay").erase "creation_rebroadcast"
    setVersion tree "6"

def fromVersion6 : Loader (NodeConfig Address) Unit := Loader.amend fun tree =>
  let tree := tree.put "bootstrap_connections" "16".toList
  let tree := tree.put "callback_address" []
  let tree := tree.put "callback_port" "0".toList
  let tree := tree.put "callback_target" []
  setVersion tree "7"

def fromVersion7 : Loader (NodeConfig Address) Unit := Loader.amend fun tree =>
  (tree.put "lmdb_max_dbs" "128".toList).put "version" "8".toList

-- The first two cases fall through to the next one; those from 3 on leave the switch.
def upgradeJson : Nat → Loader (NodeConfig Address) Bool
  | 1 => do
      fromVersion1 texts uninit
      fromVersion2 texts
      fromVersion3
      pure true
  | 2 => do
      fromVersion2 texts
      fromVersion3
      pure true
  | 3 => do
      fromVersion3
      pure true
  | 4 => do
      fromVersion4
      pure true
  | 5 => do
      fromVersion5
      pure true
  | 6 => do
      fromVersion6
      pure true
  | 7 => do
      fromVersion7
      pure true
  | 8 => pure false
  | _ => throw .runtimeError

-- After a first error no peer is kept.
def loadWorkPeers : Bool → List (String × PropertyTree) → Loader (NodeConfig Address) Bool
  | result, [] => pure result
  | result, entry :: rest =>
      match result, parseAddressPort texts entry.2.data with
      | false, some peer => do
          Loader.store fun config => { config with workPeers := config.workPeers ++ [peer] }
          loadWorkPeers false rest
      | _, _ => loadWorkPeers true rest

-- After a first error no further text is decoded, and the zero account is kept in its place.
def loadRepresentatives : Bool → List (String × PropertyTree) → Loader (NodeConfig Address) Bool
  | result, [] => pure result
  | result, entry :: rest => do
      let decoded ← if result then pure (true, 0) else Trial.called (decodeAccountInto texts.toTexts 0 entry.2.data)
      Loader.store fun config => { config with preconfiguredRepresentatives := config.preconfiguredRepresentatives ++ [decoded.2] }
      loadRepresentatives decoded.1 rest

def loadPreconfiguredPeers : Loader (NodeConfig Address) Unit := do
  let peers ← Loader.child "preconfigured_peers"
  Loader.store fun config => { config with preconfiguredPeers := peers.members.map fun entry => entry.2.data }

def loadPreconfiguredRepresentatives (result : Bool) : Loader (NodeConfig Address) Bool := do
  let representatives ← Loader.child "preconfigured_representatives"
  Loader.store fun config => { config with preconfiguredRepresentatives := [] }
  let result ← loadRepresentatives texts result representatives.members
  let config ← Loader.current
  pure (result || config.preconfiguredRepresentatives.isEmpty)

def loadLists : Loader (NodeConfig Address) Bool := do
  Loader.store fun config => { config with workPeers := [] }
  let workPeers ← Loader.child "work_peers"
  let result ← loadWorkPeers texts false workPeers.members
  loadPreconfiguredPeers
  loadPreconfiguredRepresentatives texts result

-- `stoul` narrowed to the width of the field.
def loadNumber {bits : Nat} (text : Text) (set : NodeConfig Address → BitVec bits → NodeConfig Address) :
    Loader (NodeConfig Address) Unit := do
  let number ← Trial.tried (stoul text)
  Loader.store fun config => set config (BitVec.ofNat bits number.1)

def loadAmount (text : Text) (amount : NodeConfig Address → Amount) (set : NodeConfig Address → Amount → NodeConfig Address) :
    Loader (NodeConfig Address) Bool := do
  let config ← Loader.current
  let decoded := UInt128Union.decodeDec texts.toTexts (amount config) text
  Loader.store fun config => set config decoded.2
  pure decoded.1

-- The logging tree is changed in its place in the tree of the node.
def loadLogging (tree : PropertyTree) : Loader (NodeConfig Address) Bool :=
  Trial.within (fun s => ⟨s.object.logging, s.upgraded, tree⟩)
    (fun s loaded => ⟨{ s.object with logging := loaded.object }, loaded.upgraded, s.tree.setChild "logging" loaded.tree⟩)
    (Logging.deserializeJson texts)

structure NumberTexts where
  peeringPort : Text
  bootstrapFractionNumerator : Text
  receiveMinimum : Text
  inactiveSupply : Text
  passwordFanout : Text
  ioThreads : Text
  workThreads : Text
  bootstrapConnections : Text
  lmdbMaxDbs : Text

def loadNumbers (numbers : NumberTexts) (logging : PropertyTree) (result : Bool) : Loader (NodeConfig Address) Bool :=
  Trial.catching .logicError true do
    loadNumber numbers.peeringPort fun config value => { config with peeringPort := value }
    loadNumber numbers.bootstrapFractionNumerator fun config value => { config with bootstrapFractionNumerator := value }
    loadNumber numbers.passwordFanout fun config value => { config with passwordFanout := value }
    loadNumber numbers.ioThreads fun config value => { config with ioThreads := value }
    loadNumber numbers.workThreads fun config value => { config with workThreads := value }
    loadNumber numbers.bootstrapConnections fun config value => { config with bootstrapConnections := value }
    let lmdbMaxDbs ← Trial.tried (stoi numbers.lmdbMaxDbs)
    Loader.store fun config => { config with lmdbMaxDbs := lmdbMaxDbs }
    let logged ← loadLogging texts logging
    let minimum ← loadAmount texts numbers.receiveMinimum (fun config => config.receiveMinimum) fun config value =>
      { config with receiveMinimum := value }
    let supply ← loadAmount texts numbers.inactiveSupply (fun config => config.inactiveSupply) fun config value =>
      { config with inactiveSupply := value }
    let config ← Loader.current
    pure (result || config.peeringPort.toNat > 65535 || logged || minimum || supply || config.passwordFanout.toNat < 16 ||
      config.passwordFanout.toNat > 1024 * 1024 || config.ioThreads = 0 || config.workThreads = 0)

def loadMembers (peeringPort bootstrapFractionNumerator receiveMinimum : Text) (logging : PropertyTree) (result : Bool) :
    Loader (NodeConfig Address) Bool := do
  let inactiveSupply ← Loader.text "inactive_supply"
  let passwordFanout ← Loader.text "password_fanout"
  let ioThreads ← Loader.text "io_threads"
  let workThreads ← Loader.text "work_threads"
  let enableVoting ← Trial.observe (fun s => (s.tree.get "enable_voting").bind texts.readFlag) .runtimeError
  Loader.store fun config => { config with enableVoting := enableVoting }
  let bootstrapConnections ← Loader.text "bootstrap_connections"
  let callbackAddress ← Loader.text "callback_address"
  Loader.store fun config => { config with callbackAddress := callbackAddress }
  let callbackPort ← Loader.text "callback_port"
  let callbackTarget ← Loader.text "callback_target"
  Loader.store fun config => { config with callbackTarget := callbackTarget }
  let lmdbMaxDbs ← Loader.text "lmdb_max_dbs"
  let port ← Trial.tried (parsePort callbackPort)
  Loader.store fun config => { config with callbackPort := port.2 }
  loadNumbers texts ⟨peeringPort, bootstrapFractionNumerator, receiveMinimum, inactiveSupply, passwordFanout, ioThreads, workThreads,
    bootstrapConnections, lmdbMaxDbs⟩ logging (result || port.1)

-- A logic error of the version or of the callback port is not caught.
def deserializeJson : Loader (NodeConfig Address) Bool := Trial.catching .runtimeError true do
  Loader.upgrade (upgradeJson texts uninit)
  let peeringPort ← Loader.text "peering_port"
  let bootstrapFractionNumerator ← Loader.text "bootstrap_fraction_numerator"
  let receiveMinimum ← Loader.text "receive_minimum"
  let logging ← Loader.child "logging"
  let result ← loadLists texts
  loadMembers texts peeringPort bootstrapFractionNumerator receiveMinimum logging result

end NodeConfig

end Rai
