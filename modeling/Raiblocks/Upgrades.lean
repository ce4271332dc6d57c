import Raiblocks.VoteStore

set_option autoImplicit false

namespace Rai

open Kit

structure AccountInfoV1 where
  head : Hash
  repBlock : Hash
  balance : Amount
  modified : Nat

structure AccountInfoV5 where
  head : Hash
  repBlock : Hash
  openBlock : Hash
  balance : Amount
  modified : Nat

structure PendingInfoV3 where
  source : Account
  amount : Amount
  destination : Account

-- A value of the accounts table. The formats differ in length, and the readers assert the length of theirs.
inductive AccountRow where
  | v1 (info : AccountInfoV1)
  | v5 (info : AccountInfoV5)
  | current (info : AccountInfo)

namespace AccountRow

def readV1 : AccountRow → Except Fault AccountInfoV1
  | .v1 info => .ok info
  | _ => .error .abort

def readV5 : AccountRow → Except Fault AccountInfoV5
  | .v5 info => .ok info
  | _ => .error .abort

def read : AccountRow → Except Fault AccountInfo
  | .current info => .ok info
  | _ => .error .abort

end AccountRow

-- The pending table has the hash of the send as its key, or the account and the hash.
inductive PendingTable where
  | byHash (table : Table Hash PendingInfoV3)
  | byKey (table : Table PendingKey PendingInfo)

-- A database of some version. The accounts and the pending sends are kept apart from the tables that no
-- version has changed the format of; `sequence` keeps sorted duplicates.
structure Database where
  metaVersion : Option Nat
  accounts : Table Account AccountRow
  pending : PendingTable
  sequence : Table Account (List Bytes)
  votes : Table Account Bytes
  store : Store

def Database.versionGet (db : Database) : Nat := db.metaVersion.getD 1

section Walks

variable (env : Env)

-- The walk of `upgrade_v1_to_v2` to the first block of a chain.
def firstBlock (s : Store) : Nat → Hash → Except Fault Hash
  | 0, _ => .error .fuel
  | fuel + 1, hash => do
      let found ← blockGet s hash
      let block ← require found
      if block.previous = 0 then .ok (block.hash env) else firstBlock s fuel block.previous

-- `upgrade_v4_to_v5` writes a block again if its successor is missing.
def fillSuccessor (s : Store) (hash : Hash) (block : Block) (current successor : Hash) : Except Fault Store :=
  if current = 0 ∧ successor ≠ 0 then blockPut env s hash block successor else .ok s

def fillSuccessors : Nat → Store → Hash → Hash → Except Fault Store
  | 0, _, _, _ => .error .fuel
  | fuel + 1, s, hash, successor => do
      match ← blockGet s hash with
      | none => .ok s
      | some block =>
          let current ← blockSuccessor s (block.hash env)
          let s ← fillSuccessor env s (block.hash env) block current successor
          fillSuccessors fuel s block.previous (block.hash env)

def countBlocks (s : Store) : Nat → Hash → Nat → Except Fault Nat
  | 0, _, _ => .error .fuel
  | fuel + 1, hash, count =>
      if hash = 0 then .ok count
      else do
        let found ← blockGet s hash
        let block ← require found
        countBlocks s fuel block.previous (count + 1)

-- `upgrade_v9_to_v10` walks up the successors. `depth` is the fuel of the balance visitor.
def addCheckpoint (depth : Nat) (account : Account) (s : Store) (hash : Hash) (count : Nat) : Except Fault Store :=
  if count % blockInfoMax = 0 then do
    let balance ← ledgerBalance env depth s hash
    .ok (blockInfoPut s hash ⟨account, balance⟩)
  else .ok s

def addCheckpoints (depth : Nat) (account : Account) : Nat → Store → Hash → Nat → Except Fault Store
  | 0, _, _, _ => .error .fuel
  | fuel + 1, s, hash, count =>
      if hash = 0 then .ok s
      else do
        let s ← addCheckpoint env depth account s hash count
        let next ← blockSuccessor s hash
        addCheckpoints depth account fuel s next (count + 1)

end Walks

section Versions

variable (env : Env) (fuel : Nat) (db : Database)

-- The loop looks for the next account from 1 on and stops when the number after the last one is zero again.
def upgradeV1ToV2 : Except Fault Database := do
  let accounts ← (db.accounts.rows.filter fun row => row.1 ≠ 0).foldlM (fun accounts row => do
    let info ← row.2.readV1
    let opened ← firstBlock env db.store fuel info.head
    .ok (accounts.put row.1 (.v5 ⟨info.head, info.repBlock, opened, info.balance, info.modified⟩))) db.accounts
  .ok { db with metaVersion := some 2, accounts := accounts }

def upgradeV2ToV3 : Except Fault Database := do
  let out ← db.accounts.rows.foldlM (fun (out : Table Account AccountRow × Store) row => do
    let info ← row.2.readV5
    let result ← representativeCompute env out.2 fuel info.head
    ensure (result ≠ 0)
    let s ← representationAdd out.2 result info.balance
    .ok (out.1.put row.1 (.v5 { info with repBlock := result }), s)) (db.accounts, { db.store with representation := .empty })
  .ok { db with metaVersion := some 3, accounts := out.1, store := out.2 }

-- A key with the account in front is too long for the reader.
def upgradeV3ToV4 : Except Fault Database :=
  match db.pending with
  | .byHash table =>
      let items := table.rows.map fun row => ((⟨row.2.destination, row.1⟩ : PendingKey), (⟨row.2.source, row.2.amount⟩ : PendingInfo))
      .ok { db with metaVersion := some 4, pending := .byKey (items.foldl (fun table item => table.put item.1 item.2) .empty) }
  | .byKey _ => .error .abort

def upgradeV4ToV5 : Except Fault Database := do
  let s ← db.accounts.rows.foldlM (fun s row => do
    let info ← row.2.readV5
    fillSuccessors env fuel s info.head 0) db.store
  .ok { db with metaVersion := some 5, store := s }

def upgradeV5ToV6 : Except Fault Database := do
  let headers ← db.accounts.rows.foldlM (fun headers row => do
    let old ← row.2.readV5
    let count ← countBlocks db.store fuel old.head 0
    let info : AccountInfo := ⟨old.head, old.repBlock, old.openBlock, old.balance, old.modified, count⟩
    .ok (headers ++ [(row.1, info)])) []
  .ok { db with
    metaVersion := some 6,
    accounts := headers.foldl (fun accounts header => accounts.put header.1 (.current header.2)) db.accounts }

def upgradeV6ToV7 : Except Fault Database := .ok { db with metaVersion := some 7, store := { db.store with unchecked := .empty } }

def upgradeV7ToV8 : Except Fault Database := .ok { db with metaVersion := some 8, store := { db.store with unchecked := .empty } }

-- `junk` signs with a key made for this, so that the votes are not valid.
def upgradeV8ToV9 (junk : Account → Hash → Signature) : Except Fault Database := do
  let votes ← db.sequence.rows.foldlM (fun votes row =>
    row.2.foldlM (fun (votes : Table Account Bytes) value => do
      let (sequence, _) ← require (readWordLE 8 64 value)
      let block := genesisOpen env.network
      let dummy : Vote := ⟨row.1, sequence, block, junk row.1 (voteDigest env block sequence)⟩
      .ok (votes.put row.1 dummy.serialize)) votes) db.votes
  .ok { db with metaVersion := some 9, votes := votes, sequence := .empty }

def upgradeV9ToV10 : Except Fault Database := do
  let s ← db.accounts.rows.foldlM (fun s row => do
    let info ← row.2.read
    if blockInfoMax ≤ info.blockCount then addCheckpoints env fuel row.1 fuel s info.openBlock 1 else .ok s) db.store
  .ok { db with metaVersion := some 10, store := s }

end Versions

-- The cases of the switch fall through.
def upgrades (env : Env) (junk : Account → Hash → Signature) (fuel : Nat) : List (Database → Except Fault Database) :=
  [upgradeV1ToV2 env fuel, upgradeV2ToV3 env fuel, upgradeV3ToV4, upgradeV4ToV5 env fuel, upgradeV5ToV6 fuel,
    upgradeV6ToV7, upgradeV7ToV8, fun db => upgradeV8ToV9 env db junk, upgradeV9ToV10 env fuel]

def doUpgrades (env : Env) (junk : Account → Hash → Signature) (fuel : Nat) (db : Database) : Except Fault Database := do
  ensure (1 ≤ db.versionGet ∧ db.versionGet ≤ 10)
  ((upgrades env junk fuel).drop (db.versionGet - 1)).foldlM (fun db upgrade => upgrade db) db

end Rai
