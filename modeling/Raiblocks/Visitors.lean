import Raiblocks.Store

set_option autoImplicit false

namespace Rai

open Kit

-- `representative_visitor::compute`; the loop goes on while the result is zero.
def representativeCompute (env : Env) (s : Store) : Nat → Hash → Except Fault Hash
  | 0, _ => .error .fuel
  | fuel + 1, current => do
      let found ← blockGet s current
      let block ← require found
      match block.hashables with
      | .sendBlock previous .. => representativeCompute env s fuel previous
      | .sendBlockV2 previous .. => representativeCompute env s fuel previous
      | .receiveBlock previous _ => representativeCompute env s fuel previous
      | .openBlock .. =>
          if block.hash env = 0 then representativeCompute env s fuel current else .ok (block.hash env)
      | .changeBlock .. =>
          if block.hash env = 0 then representativeCompute env s fuel current else .ok (block.hash env)

def ledgerRepresentative (env : Env) (fuel : Nat) (s : Store) (hash : Hash) : Except Fault Hash := do
  let result ← representativeCompute env s fuel hash
  ensure (result = 0 ∨ blockExists s result = true)
  .ok result

-- `amount_visitor` and `balance_visitor` call each other across account chains.
-- Their 128-bit results start at zero and wrap. Neither does anything at a
-- `send_block_v2`: the amount keeps its value, and the balance loop finds the
-- same block again.
mutual
def amountVisit (env : Env) (s : Store) : Nat → Block → Amount → Except Fault Amount
  | 0, _, _ => .error .fuel
  | fuel + 1, block, result =>
      match block.hashables with
      | .sendBlock previous _ balance => do
          let before ← balanceLoop env s fuel previous 0
          .ok (before - balance)
      | .sendBlockV2 .. => .ok result
      | .receiveBlock _ source => amountFromSend env s fuel source result
      | .openBlock source .. =>
          if source ≠ genesisAccount env.network then amountFromSend env s fuel source result else .ok genesisAmount
      | .changeBlock .. => .ok 0

def amountFromSend (env : Env) (s : Store) : Nat → Hash → Amount → Except Fault Amount
  | 0, _, _ => .error .fuel
  | fuel + 1, hash, result => do
      let found ← blockGet s hash
      let block ← require found
      amountVisit env s fuel block result

def amountCompute (env : Env) (s : Store) : Nat → Hash → Except Fault Amount
  | 0, _ => .error .fuel
  | fuel + 1, hash => do
      let found ← blockGet s hash
      match found with
      | some block => amountVisit env s fuel block 0
      | none => if hash = genesisAccount env.network then .ok (BitVec.allOnes 128) else .error .abort

def balanceLoop (env : Env) (s : Store) : Nat → Hash → Amount → Except Fault Amount
  | 0, _, _ => .error .fuel
  | fuel + 1, current, result =>
      if current = 0 then .ok result
      else do
        let found ← blockGet s current
        let block ← require found
        match block.hashables with
        | .sendBlock _ _ balance => balanceLoop env s fuel 0 (result + balance)
        | .sendBlockV2 .. => balanceLoop env s fuel current result
        | .receiveBlock previous source => do
            let amount ← amountCompute env s fuel source
            match s.blocksInfo.get (block.hash env) with
            | some info => balanceLoop env s fuel 0 (result + info.balance)
            | none => balanceLoop env s fuel previous (result + amount)
        | .openBlock source .. => do
            let amount ← amountCompute env s fuel source
            balanceLoop env s fuel 0 (result + amount)
        | .changeBlock previous _ =>
            match s.blocksInfo.get (block.hash env) with
            | some info => balanceLoop env s fuel 0 (result + info.balance)
            | none => balanceLoop env s fuel previous result
end

def ledgerBalance (env : Env) (fuel : Nat) (s : Store) (hash : Hash) : Except Fault Amount :=
  balanceLoop env s fuel hash 0

def ledgerAmount (env : Env) (fuel : Nat) (s : Store) (hash : Hash) : Except Fault Amount :=
  amountCompute env s fuel hash

-- The walk of `ledger::account` up the successors; `successor` starts at one, which is no hash.
def accountLoop (s : Store) : Nat → Hash → Hash → Except Fault Account
  | 0, _, _ => .error .fuel
  | fuel + 1, hash, successor =>
      if successor = 0 then .ok (frontierGet s hash)
      else
        match s.blocksInfo.get successor with
        | some info => .ok info.account
        | none => do
            let next ← blockSuccessor s hash
            accountLoop s fuel (if next = 0 then hash else next) next

def ledgerAccount (fuel : Nat) (s : Store) (hash : Hash) : Except Fault Account := do
  ensure (blockExists s hash = true)
  let result ← accountLoop s fuel hash 1
  ensure (result ≠ 0)
  .ok result

def ledgerLatest (s : Store) (account : Account) : Hash :=
  match s.accounts.get account with
  | some info => info.head
  | none => 0

end Rai
