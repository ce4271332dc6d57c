import Raiblocks.Visitors

set_option autoImplicit false

namespace Rai

open Kit

inductive ProcessResult where
  | progress
  | badSignature
  | old
  | overspend
  | fork
  | unreceivable
  | gapPrevious
  | gapSource
  | notReceiveFromSend
  | accountMismatch
  | openedBurnAccount
deriving DecidableEq, Repr

structure ProcessReturn where
  code : ProcessResult
  account : Account
  amount : Amount
  pendingAccount : Account
deriving DecidableEq, Repr

def checksumUpdate (s : Store) (hash : Hash) : Except Fault Store := do
  let value ← require (checksumGet s)
  .ok (checksumPut s (value ^^^ hash))

-- `clock head` is what `seconds_since_epoch` reads when `head` becomes the latest block.
def changeLatest (clock : Hash → Nat) (s : Store) (account : Account) (hash repBlock : Hash) (balance : Amount)
    (blockCount : Nat) : Except Fault Store := do
  let (s, info) ← match s.accounts.get account with
    | some info => do
        let s ← checksumUpdate s info.head
        .ok (s, info)
    | none => do
        let found ← blockGet s hash
        let block ← require found
        ensure (block.kind = .openBlock)
        .ok (s, { AccountInfo.fresh with openBlock := hash })
  if hash ≠ 0 then
    let s := accountPut s account
      { info with head := hash, repBlock := repBlock, balance := balance, modified := clock hash, blockCount := blockCount }
    let s := if blockCount % blockInfoMax = 0 then blockInfoPut s hash ⟨account, balance⟩ else s
    checksumUpdate s hash
  else
    accountDel s account

-- `uninit` is the content the `process_return` of a `ledger_processor` starts with.
def processChange (env : Env) (fuel : Nat) (clock : Hash → Nat) (uninit : ProcessReturn) (s : Store) (block : Block)
    (previous : Hash) : Except Fault (Store × ProcessReturn) :=
  let hash := block.hash env
  if blockExists s hash then .ok (s, { uninit with code := .old })
  else if ¬ blockExists s previous then .ok (s, { uninit with code := .gapPrevious })
  else
    let account := frontierGet s previous
    if account = 0 then .ok (s, { uninit with code := .fork })
    else do
      let info ← require (s.accounts.get account)
      ensure (info.head = previous)
      if env.validateMessage account hash block.signature then .ok (s, { uninit with code := .badSignature })
      else do
        let s ← blockPut env s hash block 0
        let balance ← ledgerBalance env fuel s previous
        let s ← representationAdd s hash balance
        let s ← representationAdd s info.repBlock (0 - balance)
        let s ← changeLatest clock s account hash hash info.balance (info.blockCount + 1)
        let s ← frontierDel s previous
        .ok (frontierPut s hash account, { uninit with code := .progress, account := account, amount := 0 })

def processSend (env : Env) (clock : Hash → Nat) (uninit : ProcessReturn) (s : Store) (block : Block) (previous : Hash)
    (destination : Account) (balance : Amount) : Except Fault (Store × ProcessReturn) :=
  let hash := block.hash env
  if blockExists s hash then .ok (s, { uninit with code := .old })
  else if ¬ blockExists s previous then .ok (s, { uninit with code := .gapPrevious })
  else
    let account := frontierGet s previous
    if account = 0 then .ok (s, { uninit with code := .fork })
    else if env.validateMessage account hash block.signature then .ok (s, { uninit with code := .badSignature })
    else do
      let info ← require (s.accounts.get account)
      ensure (info.head = previous)
      if ¬ balance ≤ info.balance then .ok (s, { uninit with code := .overspend })
      else do
        let amount := info.balance - balance
        let s ← representationAdd s info.repBlock (0 - amount)
        let s ← blockPut env s hash block 0
        let s ← changeLatest clock s account hash info.repBlock balance (info.blockCount + 1)
        let s := pendingPut s ⟨destination, hash⟩ ⟨account, amount⟩
        let s ← frontierDel s previous
        .ok (frontierPut s hash account,
          { code := .progress, account := account, amount := amount, pendingAccount := destination })

def Env.loads (env : Env) (fuel : Nat) (code : Bytes) : Bool := (env.micropyLoad code).any fun steps => steps ≤ fuel

-- `VM::load` touches no table. A code that it finds loaded already is one that the interpreter has come back from.
def vmLoad (env : Env) (fuel : Nat) (s : Store) (account : Account) : Except Fault Unit :=
  match accountGetCode s account with
  | none => .ok ()
  | some code => if env.loads fuel code then .ok () else .error .fuel

def processSendV2 (env : Env) (fuel : Nat) (clock : Hash → Nat) (uninit : ProcessReturn) (s : Store) (block : Block) (previous : Hash)
    (destination : Account) (action : Bytes) : Except Fault (Store × ProcessReturn) :=
  let hash := block.hash env
  if blockExists s hash then .ok (s, { uninit with code := .old })
  else if ¬ blockExists s previous then .ok (s, { uninit with code := .gapPrevious })
  else
    let account := frontierGet s previous
    if account = 0 then .ok (s, { uninit with code := .fork })
    else if env.validateMessage account hash block.signature then .ok (s, { uninit with code := .badSignature })
    else do
      let info ← require (s.accounts.get account)
      ensure (info.head = previous)
      let s := accountSetCode s account action
      vmLoad env fuel s account
      let s ← blockPut env s hash block 0
      let s ← changeLatest clock s account hash info.repBlock info.balance (info.blockCount + 1)
      let s ← frontierDel s previous
      .ok (frontierPut s hash account,
        { uninit with code := .progress, account := account, pendingAccount := destination })

def processReceive (env : Env) (clock : Hash → Nat) (uninit : ProcessReturn) (s : Store) (block : Block)
    (previous source : Hash) : Except Fault (Store × ProcessReturn) :=
  let hash := block.hash env
  if blockExists s hash then .ok (s, { uninit with code := .old })
  else if ¬ blockExists s source then .ok (s, { uninit with code := .gapSource })
  else
    let account := frontierGet s previous
    if account = 0 then
      .ok (s, { uninit with code := if blockExists s previous then .fork else .gapPrevious })
    else if env.validateMessage account hash block.signature then .ok (s, { uninit with code := .badSignature })
    else
      let info := (s.accounts.get account).getD .fresh
      if info.head ≠ previous then .ok (s, { uninit with code := .gapPrevious })
      else
        match s.pending.get ⟨account, source⟩ with
        | none => .ok (s, { uninit with code := .unreceivable })
        | some pending => do
            let newBalance := info.balance + pending.amount
            ensure ((s.accounts.get pending.source).isSome = true)
            let s ← pendingDel s ⟨account, source⟩
            let s ← blockPut env s hash block 0
            let s ← changeLatest clock s account hash info.repBlock newBalance (info.blockCount + 1)
            let s ← representationAdd s info.repBlock pending.amount
            let s ← frontierDel s previous
            .ok (frontierPut s hash account,
              { uninit with code := .progress, account := account, amount := pending.amount })

def processOpen (env : Env) (clock : Hash → Nat) (uninit : ProcessReturn) (s : Store) (block : Block) (source : Hash)
    (account : Account) : Except Fault (Store × ProcessReturn) :=
  let hash := block.hash env
  if blockExists s hash then .ok (s, { uninit with code := .old })
  else if ¬ blockExists s source then .ok (s, { uninit with code := .gapSource })
  else if env.validateMessage account hash block.signature then .ok (s, { uninit with code := .badSignature })
  else if (s.accounts.get account).isSome then .ok (s, { uninit with code := .fork })
  else
    match s.pending.get ⟨account, source⟩ with
    | none => .ok (s, { uninit with code := .unreceivable })
    | some pending =>
        if account = burnAccount then .ok (s, { uninit with code := .openedBurnAccount })
        else do
          ensure ((s.accounts.get pending.source).isSome = true)
          let s ← pendingDel s ⟨account, source⟩
          let s ← blockPut env s hash block 0
          let s ← changeLatest clock s account hash hash pending.amount (AccountInfo.fresh.blockCount + 1)
          let s ← representationAdd s hash pending.amount
          .ok (frontierPut s hash account,
            { uninit with code := .progress, account := account, amount := pending.amount })

def ledgerProcess (env : Env) (fuel : Nat) (clock : Hash → Nat) (uninit : ProcessReturn) (s : Store) (block : Block) :
    Except Fault (Store × ProcessReturn) :=
  match block.hashables with
  | .sendBlock previous destination balance => processSend env clock uninit s block previous destination balance
  | .receiveBlock previous source => processReceive env clock uninit s block previous source
  | .openBlock source _ account => processOpen env clock uninit s block source account
  | .changeBlock previous _ => processChange env fuel clock uninit s block previous
  | .sendBlockV2 previous destination action => processSendV2 env fuel clock uninit s block previous destination action

-- `genesis::initialize` on an empty store.
def genesisInitialize (env : Env) (s : Store) (now : Nat) : Except Fault Store := do
  let hash := genesisHash env
  let s ← blockPut env s hash (genesisOpen env.network) 0
  let s := accountPut s (genesisAccount env.network) ⟨hash, hash, hash, BitVec.allOnes 128, now, 1⟩
  let s := representationPut s (genesisAccount env.network) (BitVec.allOnes 128)
  let s := checksumPut s hash
  .ok (frontierPut s hash (genesisAccount env.network))

end Rai
