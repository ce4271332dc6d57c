import Raiblocks.Rollback

set_option autoImplicit false

namespace Rai

open Kit

def Kind.byte : Kind → UInt8
  | .sendBlock => 2
  | .receiveBlock => 3
  | .openBlock => 4
  | .changeBlock => 5
  | .sendBlockV2 => 6

def Kind.ofByte (byte : UInt8) : Option Kind := lookupOrder.find? fun kind => kind.byte = byte

def serializeBlock (block : Block) : Bytes := block.kind.byte :: block.serialize

-- The stream a block is read from here was written by `serializeBlock`.
def deserializeBlock : Bytes → Option Block
  | [] => none
  | byte :: stream => do
      let kind ← Kind.ofByte byte
      let (block, _) ← Block.deserialize (0, 0) kind stream
      some block

def uncheckedPut (s : Store) (hash : Hash) (block : Block) : Store :=
  { s with uncheckedCache := s.uncheckedCache ++ [(hash, block)] }

-- The order in which the `unordered_multimap` of the cache lists what it holds for one key.
abbrev CacheOrder := Hash → (blocks : List Block) → { listed : List Block // listed.Perm blocks }

def insertionOrder : CacheOrder := fun _ blocks => ⟨blocks, .refl blocks⟩

-- First the cache, then the duplicates of the table in their order. A value that
-- cannot be read gives a null pointer, which every caller dereferences.
def uncheckedGet (order : CacheOrder) (s : Store) (hash : Hash) : Except Fault (List Block) := do
  let stored ← ((s.unchecked.get hash).getD []).mapM fun value => require (deserializeBlock value)
  .ok ((order hash ((s.uncheckedCache.filter fun entry => entry.1 = hash).map Prod.snd)).val ++ stored)

-- A key goes with its last duplicate.
def setDuplicates (table : Table Hash (List Bytes)) (key : Hash) (values : List Bytes) : Table Hash (List Bytes) :=
  if values = [] then table.del key else table.put key values

def uncheckedDel (s : Store) (hash : Hash) (block : Block) : Store :=
  { s with
    uncheckedCache := s.uncheckedCache.filter fun entry => entry ≠ (hash, block)
    unchecked := setDuplicates s.unchecked hash
      (((s.unchecked.get hash).getD []).filter fun value => value ≠ serializeBlock block) }

-- LMDB keeps the duplicates of a key sorted and refuses one of more than 511 bytes.
def duplicateMax : Nat := 511

def insertDuplicate (value : Bytes) : List Bytes → List Bytes
  | [] => [value]
  | other :: rest =>
      if value = other then other :: rest
      else if value < other then value :: other :: rest
      else other :: insertDuplicate value rest

def flushEntry (unchecked : Table Hash (List Bytes)) (entry : Hash × Block) : Except Fault (Table Hash (List Bytes)) := do
  ensure ((serializeBlock entry.2).length ≤ duplicateMax)
  .ok (setDuplicates unchecked entry.1 (insertDuplicate (serializeBlock entry.2) ((unchecked.get entry.1).getD [])))

-- `block_store::flush`, without the votes.
def storeFlush (s : Store) : Except Fault Store := do
  let unchecked ← s.uncheckedCache.foldlM flushEntry s.unchecked
  .ok { s with unchecked := unchecked, uncheckedCache := [] }

def ledgerSuccessor (fuel : Nat) (s : Store) (root : Hash) : Except Fault Block := do
  ensure ((s.accounts.get root).isSome = true ∨ blockExists s root = true)
  let successor ← match s.accounts.get root with
    | some info => .ok info.openBlock
    | none => do
        let account ← ledgerAccount fuel s root
        ensure (ledgerLatest s account ≠ root)
        blockSuccessor s root
  ensure (successor ≠ 0)
  let found ← blockGet s successor
  require found

structure BlockProcessorItem where
  block : Block
  force : Bool

-- The bookkeeping of gaps and forks and the log are left out: they touch no table.
def processReceiveOne (env : Env) (fuel : Nat) (clock : Hash → Nat) (uninit : ProcessReturn) (s : Store) (block : Block) :
    Except Fault (Store × ProcessReturn) := do
  let (s, result) ← ledgerProcess env fuel clock uninit s block
  match result.code with
  | .gapPrevious => .ok (uncheckedPut s block.previous block, result)
  | .gapSource => .ok (uncheckedPut s block.source block, result)
  | .old => do
      let hash := block.hash env
      let existing ← blockGet s hash
      match existing with
      | some existing =>
          if workValue env block.root block.work > workValue env block.root existing.work then do
            let successor ← blockSuccessor s hash
            let s ← blockPut env s hash block successor
            .ok (s, result)
          else .ok (s, result)
      | none => .ok (s, result)
  | _ => .ok (s, result)

-- What one write transaction of the block processor meets: how many items it gets
-- through before its cutoff, and whether the store is flushed before the next one.
structure Turn where
  limit : Nat
  flush : Bool
  clock : Hash → Nat
  uninit : ProcessReturn
  order : CacheOrder

abbrev Progress := List (Block × ProcessReturn)

-- A forced block replaces whatever stands in its place.
def forceItem (env : Env) (fuel : Nat) (clock : Hash → Nat) (s : Store) (item : BlockProcessorItem) : Except Fault Store :=
  if item.force then do
    let successor ← ledgerSuccessor fuel s item.block.root
    if successor.hash env ≠ item.block.hash env then ledgerRollback env clock fuel s (successor.hash env) else .ok s
  else .ok s

-- One item, with the queue behind it. `progress` falls through to `old`, and what
-- waited for the block goes to the front of the queue, one after the other.
def processItem (env : Env) (fuel : Nat) (turn : Turn) (s : Store) (item : BlockProcessorItem) (queue : List BlockProcessorItem) :
    Except Fault (Store × List BlockProcessorItem × Progress) := do
  let hash := item.block.hash env
  let s ← forceItem env fuel turn.clock s item
  let (s, result) ← processReceiveOne env fuel turn.clock turn.uninit s item.block
  if result.code = .progress ∨ result.code = .old then do
    let cached ← uncheckedGet turn.order s hash
    .ok (cached.foldl (fun s block => uncheckedDel s hash block) s, (cached.map fun block => ⟨block, false⟩).reverse ++ queue,
      if result.code = .progress then [(item.block, result)] else [])
  else .ok (s, queue, [])

def processTransaction (env : Env) (fuel : Nat) (turn : Turn) :
    Nat → Store → List BlockProcessorItem → Except Fault (Store × List BlockProcessorItem × Progress)
  | 0, s, queue => .ok (s, queue, [])
  | _ + 1, s, [] => .ok (s, [], [])
  | limit + 1, s, item :: queue => do
      let (s, queue, done) ← processItem env fuel turn s item queue
      let (s, queue, more) ← processTransaction env fuel turn limit s queue
      .ok (s, queue, done ++ more)

inductive Observation where
  | blocks (block : Block) (account : Account) (amount : Amount)
  | accountBalance (account : Account) (pending : Bool)

def observe (progress : Block × ProcessReturn) : List Observation :=
  .blocks progress.1 progress.2.account progress.2.amount ::
    if progress.2.amount > 0 then
      .accountBalance progress.2.account false ::
        if progress.2.pendingAccount ≠ 0 then [.accountBalance progress.2.pendingAccount true] else []
    else []

def flushBetween (turn : Turn) (s : Store) : Except Fault Store := if turn.flush then storeFlush s else .ok s

def processRounds (env : Env) (fuel : Nat) :
    Nat → (Nat → Turn) → Store → List BlockProcessorItem → Except Fault (Store × List Observation)
  | _, _, s, [] => .ok (s, [])
  | 0, _, _, _ :: _ => .error .fuel
  | rounds + 1, turns, s, item :: queue => do
      let (s, queue, done) ← processTransaction env fuel (turns 0) (turns 0).limit s (item :: queue)
      let s ← flushBetween (turns 0) s
      let (s, seen) ← processRounds env fuel rounds (fun k => turns (k + 1)) s queue
      .ok (s, done.flatMap observe ++ seen)

def processReceiveMany (env : Env) (fuel : Nat) (turns : Nat → Turn) (s : Store) (items : List BlockProcessorItem) :
    Except Fault (Store × List Observation) :=
  processRounds env fuel fuel turns s items

end Rai
