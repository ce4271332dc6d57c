import Mathlib.Logic.Function.Basic
import Raiblocks.Codec
import Raiblocks.Kit.Fuel
import Raiblocks.Kit.Table

set_option autoImplicit false

namespace Rai

open Kit

structure AccountInfo where
  head : Hash
  repBlock : Hash
  openBlock : Hash
  balance : Amount
  modified : Nat
  -- A `uint64_t` that counts stored blocks; the map of the database ends at 2^40 bytes, so no run wraps it.
  blockCount : Nat
deriving DecidableEq, Repr

structure PendingKey where
  account : Account
  hash : Hash
deriving DecidableEq, Repr

structure PendingInfo where
  source : Account
  amount : Amount
deriving DecidableEq, Repr

structure BlockInfo where
  account : Account
  balance : Amount
deriving DecidableEq, Repr

-- `blocks` holds the five block databases. A value there is the serialized
-- block followed by the 32 bytes of its successor. `unchecked` keeps sorted
-- duplicates, `uncheckedCache` is the multimap in front of it.
structure Store where
  frontiers : Table Hash Account
  accounts : Table Account AccountInfo
  vmCodes : Table Account Bytes
  blocks : Kind → Table Hash Bytes
  pending : Table PendingKey PendingInfo
  blocksInfo : Table Hash BlockInfo
  representation : Table Account Amount
  checksum : Table (BitVec 64) Hash
  unchecked : Table Hash (List Bytes)
  uncheckedCache : List (Hash × Block)

-- The fresh database as the constructor leaves it: no entries besides a zero checksum.
def Store.fresh : Store where
  frontiers := .empty
  accounts := .empty
  vmCodes := .empty
  blocks := fun _ => .empty
  pending := .empty
  blocksInfo := .empty
  representation := .empty
  checksum := Table.empty.put 0 0
  unchecked := .empty
  uncheckedCache := []

def AccountInfo.fresh : AccountInfo := ⟨0, 0, 0, 0, 0, 0⟩

def blockInfoMax : Nat := 32

-- `mdb_del` with the assertion that the key was there.
def mdbDel {K V : Type} [DecidableEq K] (table : Table K V) (key : K) : Except Fault (Table K V) :=
  match table.get key with
  | some _ => .ok (table.del key)
  | none => .error .abort

-- The order in which `block_get_raw`, `block_exists` and `block_del` try the databases.
def lookupOrder : List Kind := [.sendBlock, .receiveBlock, .openBlock, .changeBlock, .sendBlockV2]

def blockPutRaw (s : Store) (kind : Kind) (hash : Hash) (value : Bytes) : Store :=
  { s with blocks := Function.update s.blocks kind ((s.blocks kind).put hash value) }

def blockGetRaw (s : Store) (hash : Hash) : Option (Kind × Bytes) :=
  lookupOrder.findSome? fun kind => ((s.blocks kind).get hash).map fun value => (kind, value)

def blockExists (s : Store) (hash : Hash) : Bool :=
  lookupOrder.any fun kind => ((s.blocks kind).get hash).isSome

def blockDel (s : Store) (hash : Hash) : Except Fault Store := do
  let kind ← require (lookupOrder.find? fun kind => ((s.blocks kind).get hash).isSome)
  .ok { s with blocks := Function.update s.blocks kind ((s.blocks kind).del hash) }

-- A stored value always holds the two length bytes, so what the locals of
-- `read_bytes` start from does not matter here.
def blockGet (s : Store) (hash : Hash) : Except Fault (Option Block) :=
  match blockGetRaw s hash with
  | none => .ok none
  | some (kind, value) => do
      let (block, _) ← require (Block.deserialize (0, 0) kind value)
      .ok (some block)

def blockSuccessor (s : Store) (hash : Hash) : Except Fault Hash :=
  match blockGetRaw s hash with
  | none => .ok 0
  | some (_, value) => do
      ensure (32 ≤ value.length)
      .ok (bytesWord 256 (value.drop (value.length - 32)))

def fillValue (env : Env) (s : Store) (block : Block) : Except Fault Store := do
  let (kind, value) ← require (blockGetRaw s block.previous)
  .ok (blockPutRaw s kind block.previous (value.take (value.length - 32) ++ wordBytes 32 (block.hash env)))

def setPredecessor (env : Env) (s : Store) (block : Block) : Except Fault Store :=
  match block.kind with
  | .openBlock => .ok s
  | _ => fillValue env s block

def blockPut (env : Env) (s : Store) (hash : Hash) (block : Block) (successor : Hash) : Except Fault Store := do
  ensure (successor = 0 ∨ blockExists s successor = true)
  let s ← setPredecessor env (blockPutRaw s block.kind hash (block.serialize ++ wordBytes 32 successor)) block
  if block.previous = 0 then .ok s
  else do
    let next ← blockSuccessor s block.previous
    ensure (next = hash)
    .ok s

def blockSuccessorClear (env : Env) (s : Store) (hash : Hash) : Except Fault Store := do
  let found ← blockGet s hash
  let block ← require found
  blockPut env s hash block 0

def frontierGet (s : Store) (hash : Hash) : Account := (s.frontiers.get hash).getD 0

def frontierPut (s : Store) (hash : Hash) (account : Account) : Store :=
  { s with frontiers := s.frontiers.put hash account }

def frontierDel (s : Store) (hash : Hash) : Except Fault Store := do
  let frontiers ← mdbDel s.frontiers hash
  .ok { s with frontiers := frontiers }

def accountPut (s : Store) (account : Account) (info : AccountInfo) : Store :=
  { s with accounts := s.accounts.put account info }

def accountDel (s : Store) (account : Account) : Except Fault Store := do
  let accounts ← mdbDel s.accounts account
  .ok { s with accounts := accounts }

def accountSetCode (s : Store) (account : Account) (code : Bytes) : Store :=
  { s with vmCodes := s.vmCodes.put account code }

def accountGetCode (s : Store) (account : Account) : Option Bytes := s.vmCodes.get account

def pendingPut (s : Store) (key : PendingKey) (info : PendingInfo) : Store :=
  { s with pending := s.pending.put key info }

def pendingDel (s : Store) (key : PendingKey) : Except Fault Store := do
  let pending ← mdbDel s.pending key
  .ok { s with pending := pending }

def blockInfoPut (s : Store) (hash : Hash) (info : BlockInfo) : Store :=
  { s with blocksInfo := s.blocksInfo.put hash info }

def blockInfoDel (s : Store) (hash : Hash) : Except Fault Store := do
  let blocksInfo ← mdbDel s.blocksInfo hash
  .ok { s with blocksInfo := blocksInfo }

def representationGet (s : Store) (account : Account) : Amount := (s.representation.get account).getD 0

def representationPut (s : Store) (account : Account) (weight : Amount) : Store :=
  { s with representation := s.representation.put account weight }

-- `source` is a block hash: the weight goes to the representative that block names.
def representationAdd (s : Store) (source : Hash) (amount : Amount) : Except Fault Store := do
  let found ← blockGet s source
  let block ← require found
  ensure (block.representative ≠ 0)
  .ok (representationPut s block.representative (representationGet s block.representative + amount))

-- The key is `prefix | mask`; the ledger only uses the region 0, 0.
def checksumPut (s : Store) (value : Hash) : Store := { s with checksum := s.checksum.put 0 value }

def checksumGet (s : Store) : Option Hash := s.checksum.get 0

end Rai
