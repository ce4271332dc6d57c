import Raiblocks.Ledger

set_option autoImplicit false

namespace Rai

open Kit

-- The bodies of `rollback_visitor` after its waiting loop. `info` is read
-- before the tables change, and its counter decides about the checkpoint.
def undoSend (env : Env) (fuel : Nat) (clock : Hash → Nat) (s : Store) (block : Block) (previous : Hash)
    (destination : Account) (pending : PendingInfo) : Except Fault Store := do
  let hash := block.hash env
  let info ← require (s.accounts.get pending.source)
  let s ← pendingDel s ⟨destination, hash⟩
  let representative ← ledgerRepresentative env fuel s hash
  let s ← representationAdd s representative pending.amount
  let balance ← ledgerBalance env fuel s previous
  let s ← changeLatest clock s pending.source previous info.repBlock balance (info.blockCount - 1)
  let s ← blockDel s hash
  let s ← frontierDel s hash
  let s := frontierPut s previous pending.source
  let s ← blockSuccessorClear env s previous
  if info.blockCount % blockInfoMax = 0 then blockInfoDel s hash else .ok s

def undoReceive (env : Env) (fuel : Nat) (clock : Hash → Nat) (s : Store) (block : Block) (previous source : Hash) :
    Except Fault Store := do
  let hash := block.hash env
  let representative ← ledgerRepresentative env fuel s previous
  let amount ← ledgerAmount env fuel s source
  let destination ← ledgerAccount fuel s hash
  let info ← require (s.accounts.get destination)
  let current ← ledgerRepresentative env fuel s hash
  let s ← representationAdd s current (0 - amount)
  let balance ← ledgerBalance env fuel s previous
  let s ← changeLatest clock s destination previous representative balance (info.blockCount - 1)
  let s ← blockDel s hash
  let sender ← ledgerAccount fuel s source
  let s := pendingPut s ⟨destination, source⟩ ⟨sender, amount⟩
  let s ← frontierDel s hash
  let s := frontierPut s previous destination
  let s ← blockSuccessorClear env s previous
  if info.blockCount % blockInfoMax = 0 then blockInfoDel s hash else .ok s

def undoOpen (env : Env) (fuel : Nat) (clock : Hash → Nat) (s : Store) (block : Block) (source : Hash) :
    Except Fault Store := do
  let hash := block.hash env
  let amount ← ledgerAmount env fuel s source
  let destination ← ledgerAccount fuel s hash
  let current ← ledgerRepresentative env fuel s hash
  let s ← representationAdd s current (0 - amount)
  let s ← changeLatest clock s destination 0 0 0 0
  let s ← blockDel s hash
  let sender ← ledgerAccount fuel s source
  let s := pendingPut s ⟨destination, source⟩ ⟨sender, amount⟩
  frontierDel s hash

def undoChange (env : Env) (fuel : Nat) (clock : Hash → Nat) (s : Store) (block : Block) (previous : Hash) :
    Except Fault Store := do
  let hash := block.hash env
  let representative ← ledgerRepresentative env fuel s previous
  let account ← ledgerAccount fuel s previous
  let info ← require (s.accounts.get account)
  let balance ← ledgerBalance env fuel s previous
  let s ← representationAdd s representative balance
  let s ← representationAdd s hash (0 - balance)
  let s ← blockDel s hash
  let s ← changeLatest clock s account previous representative info.balance (info.blockCount - 1)
  let s ← frontierDel s hash
  let s := frontierPut s previous account
  let s ← blockSuccessorClear env s previous
  if info.blockCount % blockInfoMax = 0 then blockInfoDel s hash else .ok s

-- `ledger::rollback` and `rollback_visitor` call each other: undoing a send that
-- was received first rolls back the receiving account, one latest block at a time.
mutual
def ledgerRollback (env : Env) (clock : Hash → Nat) : Nat → Store → Hash → Except Fault Store
  | 0, _, _ => .error .fuel
  | fuel + 1, s, hash => do
      ensure (blockExists s hash = true)
      let account ← ledgerAccount fuel s hash
      rollbackLoop env clock fuel s account hash

def rollbackLoop (env : Env) (clock : Hash → Nat) : Nat → Store → Account → Hash → Except Fault Store
  | 0, _, _, _ => .error .fuel
  | fuel + 1, s, account, hash =>
      if blockExists s hash then do
        let info ← require (s.accounts.get account)
        let found ← blockGet s info.head
        let block ← require found
        let s ← rollbackVisit env clock fuel s block
        rollbackLoop env clock fuel s account hash
      else .ok s

def rollbackVisit (env : Env) (clock : Hash → Nat) : Nat → Store → Block → Except Fault Store
  | 0, _, _ => .error .fuel
  | fuel + 1, s, block =>
      match block.hashables with
      | .sendBlock previous destination _ => do
          let (s, pending) ← rollbackWait env clock fuel s ⟨destination, block.hash env⟩
          undoSend env fuel clock s block previous destination pending
      | .sendBlockV2 .. => .ok s
      | .receiveBlock previous source => undoReceive env fuel clock s block previous source
      | .openBlock source .. => undoOpen env fuel clock s block source
      | .changeBlock previous _ => undoChange env fuel clock s block previous

def rollbackWait (env : Env) (clock : Hash → Nat) : Nat → Store → PendingKey → Except Fault (Store × PendingInfo)
  | 0, _, _ => .error .fuel
  | fuel + 1, s, key =>
      match s.pending.get key with
      | some pending => .ok (s, pending)
      | none => do
          let s ← ledgerRollback env clock fuel s (ledgerLatest s key.account)
          rollbackWait env clock fuel s key
end

end Rai
