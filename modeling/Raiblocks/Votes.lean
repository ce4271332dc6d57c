import Raiblocks.Ledger

set_option autoImplicit false

namespace Rai

open Kit

structure Vote where
  account : Account
  sequence : BitVec 64
  block : Block
  signature : Signature
deriving DecidableEq

structure Votes where
  id : Hash
  repVotes : Table Account Block

-- The block of a new election stands for `not_an_account`, which is drawn at the start of the program.
def Votes.start (notAnAccount : Account) (block : Block) : Votes := ⟨block.root, Table.empty.put notAnAccount block⟩

inductive TallyResult where
  | vote
  | changed
  | confirm
deriving DecidableEq, Repr

def Votes.vote (votes : Votes) (vote : Vote) : Votes × TallyResult :=
  match votes.repVotes.get vote.account with
  | none => ({ votes with repVotes := votes.repVotes.put vote.account vote.block }, .vote)
  | some existing =>
      if existing ≠ vote.block then ({ votes with repVotes := votes.repVotes.put vote.account vote.block }, .changed)
      else (votes, .confirm)

theorem vote_records (votes : Votes) (vote : Vote) :
    (votes.vote vote).1 = { votes with repVotes := votes.repVotes.put vote.account vote.block } := by
  unfold Votes.vote
  cases found : votes.repVotes.get vote.account with
  | none => rfl
  | some existing =>
      dsimp only
      split
      · rfl
      · next same => rw [Table.put_same _ _ _ (found.trans (congrArg some (not_not.mp same)))]

def ledgerWeight (s : Store) (account : Account) : Amount := representationGet s account

-- The map of blocks to vote totals, filled from `rep_votes` in the order of that hash map.
-- Blocks are compared whole, with signature and work.
def tallyTotals (s : Store) (voted : List (Account × Block)) : Table Block Amount :=
  voted.foldl (fun totals entry => totals.put entry.2 ((totals.get entry.2).getD 0 + ledgerWeight s entry.1)) .empty

-- `result[total] = block` in a map that is kept in decreasing order of its keys.
def setTotal (total : Amount) (block : Block) : List (Amount × Block) → List (Amount × Block)
  | [] => [(total, block)]
  | (other, held) :: rest =>
      if total = other then (total, block) :: rest
      else if total > other then (total, block) :: (other, held) :: rest
      else (other, held) :: setTotal total block rest

def tallyResult (totals : List (Block × Amount)) : List (Amount × Block) :=
  totals.foldl (fun result entry => setTotal entry.2 entry.1 result) []

-- The orders in which the two hash maps of `ledger::tally` are iterated.
structure Orders (s : Store) (votes : Votes) where
  voted : List (Account × Block)
  totals : List (Block × Amount)
  votedLists : votes.repVotes.Lists voted
  totalsLists : (tallyTotals s voted).Lists totals

def ledgerTally (s : Store) (votes : Votes) (orders : Orders s votes) : List (Amount × Block) := tallyResult orders.totals

def ledgerWinner (s : Store) (votes : Votes) (orders : Orders s votes) : Except Fault (Amount × Block) :=
  require (ledgerTally s votes orders).head?

def ledgerAccountBalance (s : Store) (account : Account) : Amount := ((s.accounts.get account).map AccountInfo.balance).getD 0

-- What `account_pending` adds up for every account but the last (`account_pending_sum`).
def pendingSum (s : Store) (account : Account) : Amount :=
  s.pending.wordSum fun key info => if key.account = account then info.amount else 0

theorem pending_sum_value (s : Store) (account : Account) : (pendingSum s account).toNat =
    (s.pending.sum fun key info => if key.account = account then info.amount.toNat else 0) % 2 ^ 128 := by
  have values : (fun (key : PendingKey) (info : PendingInfo) => (if key.account = account then info.amount else 0).toNat) =
      fun key info => if key.account = account then info.amount.toNat else 0 := by
    funext key info
    split <;> rfl
  rw [pendingSum, Table.fold_toNat, values]

def ledgerSupply (env : Env) (inactiveSupply : Amount) (s : Store) : Amount :=
  let unallocated := ledgerAccountBalance s (genesisAccount env.network)
  let burned := pendingSum s 0
  let absoluteSupply := genesisAmount - unallocated - burned
  let adjustedSupply := absoluteSupply - inactiveSupply
  if adjustedSupply ≤ absoluteSupply then adjustedSupply else 0

def quorumThreshold (env : Env) (inactiveSupply : Amount) (s : Store) : Amount := ledgerSupply env inactiveSupply s / 2

def minimumThreshold (env : Env) (inactiveSupply : Amount) (s : Store) : Amount := ledgerSupply env inactiveSupply s / 16

structure Election where
  votes : Votes
  lastWinner : Block
  confirmed : Bool

-- What `confirm_once` leaves to the background: the forced block, and the winner that is confirmed.
inductive ElectionAction where
  | force (block : Block)
  | confirm (block : Block)

def confirmOnce (env : Env) (inactiveSupply : Amount) (s : Store) (election : Election) (orders : Orders s election.votes) :
    Except Fault (Election × List ElectionAction) :=
  if election.confirmed then .ok (election, [])
  else do
    let winner ← require (ledgerTally s election.votes orders).head?
    if winner.2 ≠ election.lastWinner then
      if winner.1 > minimumThreshold env inactiveSupply s then
        .ok ({ election with confirmed := true, lastWinner := winner.2 }, [.force winner.2, .confirm winner.2])
      else .ok ({ election with confirmed := true }, [.confirm election.lastWinner])
    else .ok ({ election with confirmed := true }, [.confirm election.lastWinner])

def haveQuorum (env : Env) (inactiveSupply : Amount) (s : Store) (election : Election) (orders : Orders s election.votes) :
    Except Fault Bool := do
  let winner ← require (ledgerTally s election.votes orders).head?
  .ok (decide (winner.1 > quorumThreshold env inactiveSupply s))

def confirmIfQuorum (env : Env) (inactiveSupply : Amount) (s : Store) (election : Election) (orders : Orders s election.votes) :
    Except Fault (Election × List ElectionAction) := do
  let quorum ← haveQuorum env inactiveSupply s election orders
  if quorum then confirmOnce env inactiveSupply s election orders else .ok (election, [])

section Confirm

variable (env : Env) (inactiveSupply : Amount) (s : Store) (election : Election) (orders : Orders s election.votes)

inductive Confirms : Election × List ElectionAction → Prop
  | decided (once : election.confirmed = true) : Confirms (election, [])
  | kept (undecided : election.confirmed = false) : Confirms ({ election with confirmed := true }, [.confirm election.lastWinner])
  | overturned (weight : Amount) (block : Block) (undecided : election.confirmed = false)
      (first : (ledgerTally s election.votes orders).head? = some (weight, block)) (different : block ≠ election.lastWinner)
      (above : weight > minimumThreshold env inactiveSupply s) :
      Confirms ({ election with confirmed := true, lastWinner := block }, [.force block, .confirm block])

theorem confirms_votes (out : Election × List ElectionAction) (confirms : Confirms env inactiveSupply s election orders out) :
    out.1.votes = election.votes := by
  cases confirms <;> rfl

theorem confirm_once_settles : Settles (confirmOnce env inactiveSupply s election orders)
    (fun _ => (ledgerTally s election.votes orders).head? = none) (Confirms env inactiveSupply s election orders) := by
  unfold confirmOnce
  refine settles_unless (fun once => .decided once) fun open_ => ?_
  have undecided : election.confirmed = false := Bool.eq_false_iff.mpr open_
  cases first : (ledgerTally s election.votes orders).head? with
  | none => exact rfl
  | some winner =>
      rw [require_some, bind_ok]
      split
      · next different =>
          split
          · next above => exact .overturned winner.1 winner.2 undecided first different above
          · exact .kept undecided
      · exact .kept undecided

theorem confirm_once_changed (next : Election) (actions : List ElectionAction)
    (returned : confirmOnce env inactiveSupply s election orders = .ok (next, actions))
    (changed : next.lastWinner ≠ election.lastWinner) :
    ∃ weight, election.confirmed = false ∧ (ledgerTally s election.votes orders).head? = some (weight, next.lastWinner) ∧
      weight > minimumThreshold env inactiveSupply s ∧ actions = [.force next.lastWinner, .confirm next.lastWinner] := by
  cases settles_returned (confirm_once_settles env inactiveSupply s election orders) returned with
  | decided => exact absurd rfl changed
  | kept => exact absurd rfl changed
  | overturned weight _ undecided first _ above => exact ⟨weight, undecided, first, above, rfl⟩

theorem confirm_once_overturns (weight : Amount) (block : Block) (undecided : election.confirmed = false)
    (first : (ledgerTally s election.votes orders).head? = some (weight, block)) (different : block ≠ election.lastWinner)
    (above : weight > minimumThreshold env inactiveSupply s) : confirmOnce env inactiveSupply s election orders =
      .ok ({ election with confirmed := true, lastWinner := block }, [.force block, .confirm block]) := by
  rw [confirmOnce, undecided, if_neg Bool.false_ne_true, first, require_some, bind_ok, if_pos different, if_pos above]

theorem confirm_quorum_settles : Settles (confirmIfQuorum env inactiveSupply s election orders)
    (fun _ => (ledgerTally s election.votes orders).head? = none) fun out => out.1.votes = election.votes := by
  have counted : Settles (haveQuorum env inactiveSupply s election orders) (fun _ => (ledgerTally s election.votes orders).head? = none)
      fun _ => True := by
    unfold haveQuorum
    cases (ledgerTally s election.votes orders).head? <;> trivial
  refine settles_bind counted fun quorum _ => ?_
  split
  · exact settles_mono (confirm_once_settles env inactiveSupply s election orders) (fun _ => id)
      (confirms_votes env inactiveSupply s election orders)
  · rfl

end Confirm

end Rai
