import Raiblocks.Kit.Cursor
import Raiblocks.Kit.Runs
import Raiblocks.UncheckedSpec
import Raiblocks.Votes

set_option autoImplicit false

namespace Rai

open Kit

def voteDigest (env : Env) (block : Block) (sequence : BitVec 64) : Hash :=
  env.blake2b (wordBytes 32 (block.hash env) ++ wordBytesLE 8 sequence)

namespace Vote

def hash (env : Env) (vote : Vote) : Hash := voteDigest env vote.block vote.sequence

def serialize (vote : Vote) : Bytes :=
  wordBytes 32 vote.account ++ (wordBytes 64 vote.signature ++ (wordBytesLE 8 vote.sequence ++ serializeBlock vote.block))

def deserialize (value : Bytes) : Option Vote := do
  let (account, stream) ← readWord 32 256 value
  let (signature, stream) ← readWord 64 512 stream
  let (sequence, stream) ← readWordLE 8 64 stream
  let block ← deserializeBlock stream
  some ⟨account, sequence, block, signature⟩

end Vote

structure VoteStore where
  votes : Table Account Bytes
  voteCache : Table Account Vote

section Calls

-- What a call reads of the table goes through its transaction, and the cache is the one at the time of the call.
variable (env : Env) (table : Table Account Bytes) (cache : Table Account Vote)

def voteGet (account : Account) : Except Fault (Option Vote) :=
  match table.get account with
  | some value => do .ok (some (← require (Vote.deserialize value)))
  | none => .ok none

def voteCurrent (account : Account) : Except Fault (Option Vote) :=
  match cache.get account with
  | some vote => .ok (some vote)
  | none => voteGet table account

-- `key` signs with the private key of the account.
def voteGenerate (account : Account) (key : Hash → Signature) (block : Block) : Except Fault (Table Account Vote × Vote) := do
  let current ← voteCurrent table cache account
  let sequence := (current.map Vote.sequence).getD 0 + 1
  let result : Vote := ⟨account, sequence, block, key (voteDigest env block sequence)⟩
  .ok (cache.put account result, result)

def voteMax (vote : Vote) : Except Fault (Table Account Vote × Vote) := do
  let current ← voteCurrent table cache vote.account
  let result := match current with
    | some current => if current.sequence > vote.sequence then current else vote
    | none => vote
  .ok (cache.put vote.account result, result)

inductive VoteCode where
  | invalid
  | replay
  | vote
deriving DecidableEq, Repr

structure VoteResult where
  code : VoteCode
  vote : Option Vote
deriving DecidableEq

-- The source compares pointers. `vote_max` returns another vote only if its sequence number is higher.
def voteValidate (vote : Vote) : Except Fault (Table Account Vote × VoteResult) :=
  if env.validateMessage vote.account (vote.hash env) vote.signature = true then .ok (cache, ⟨.invalid, none⟩)
  else do
    let kept ← voteMax table cache vote
    .ok (kept.1, ⟨if kept.2 = vote then .vote else .replay, some kept.2⟩)

-- The assertion of `election::vote`, which validates the vote once more.
def electionValidates (vote : Vote) : Except Fault (Table Account Vote) := do
  let out ← voteValidate env table cache vote
  ensure (out.2.code ≠ .invalid)
  .ok out.1

end Calls

-- A vote is recorded once it has been validated.
def electionVote (env : Env) (inactiveSupply : Amount) (s : Store) (table : Table Account Bytes) (cache : Table Account Vote)
    (election : Election) (vote : Vote) (orders : (votes : Votes) → Orders s votes) :
    Except Fault (Table Account Vote × Election × List ElectionAction) := do
  let cache ← electionValidates env table cache vote
  let votes := (election.votes.vote vote).1
  let out ← confirmIfQuorum env inactiveSupply s { election with votes := votes } (orders votes)
  .ok (cache, out)

-- The observers of a vote hand it to the election for its root, if one is running.
def voteProcessorVote (env : Env) (elections : Hash → Bool) (s : VoteStore) (vote : Vote) : Except Fault (VoteStore × VoteResult) := do
  let out ← voteValidate env s.votes s.voteCache vote
  if out.2.code = .vote ∧ elections vote.block.root = true then
    let cache ← electionValidates env s.votes out.1 vote
    .ok (⟨s.votes, cache⟩, out.2)
  else .ok (⟨s.votes, out.1⟩, out.2)

-- The votes in `block_store::flush`, in the order of the cache that was swapped out.
def writeVotes (table : Table Account Bytes) (order : List (Account × Vote)) : Table Account Bytes :=
  order.foldl (fun table entry => table.put entry.1 entry.2.serialize) table

def flushVotes (s : VoteStore) (order : List (Account × Vote)) : VoteStore := ⟨writeVotes s.votes order, .empty⟩

theorem deserialize_vote (vote : Vote) : ∃ block, Vote.deserialize vote.serialize = some { vote with block := block } := by
  obtain ⟨block, _, reads⟩ := deserialize_reads_as (0, 0) vote.block
  obtain ⟨left, read⟩ := reads []
  rw [List.append_nil] at read
  refine ⟨block, ?_⟩
  have stored : deserializeBlock (serializeBlock vote.block) = some block := by
    simp [deserializeBlock, serializeBlock, kind_of_byte, read]
  simp [Vote.deserialize, Vote.serialize, read_word_written, read_word_le_written, stored]

def Written (table : Table Account Bytes) : Prop :=
  ∀ account value, table.get account = some value → ∃ vote : Vote, value = vote.serialize

def sequenceOf : Option Vote → WithBot (BitVec 64)
  | some vote => vote.sequence
  | none => ⊥

theorem written_empty : Written .empty := by
  intro account value stored
  rw [Table.get_empty] at stored
  cases stored

def heldSequence (table : Table Account Bytes) (cache : Table Account Vote) (account : Account) : WithBot (BitVec 64) :=
  sequenceOf ((cache.get account).or ((table.get account).bind Vote.deserialize))

def Signed (env : Env) (vote : Vote) : Prop := env.validateMessage vote.account (vote.hash env) vote.signature = false

instance (env : Env) (vote : Vote) : Decidable (Signed env vote) := inferInstanceAs (Decidable (_ = false))

section Marks

variable {env : Env} {table : Table Account Bytes} {cache : Table Account Vote}

theorem current_settles (account : Account) : Settles (voteCurrent table cache account) (fun _ => ¬ Written table) fun current =>
    heldSequence table cache account = sequenceOf current := by
  unfold voteCurrent voteGet heldSequence
  cases cache.get account with
  | some vote => exact rfl
  | none =>
      cases stored : table.get account with
      | none => exact rfl
      | some value =>
          cases read : Vote.deserialize value with
          | none =>
              refine settles_stop (by rw [read]; rfl) fun written => ?_
              obtain ⟨vote, same⟩ := written account value stored
              obtain ⟨block, whole⟩ := deserialize_vote vote
              rw [← same, read] at whole
              cases whole
          | some vote =>
              refine settles_step (by rw [read]; rfl) ?_
              simp [read]

theorem held_put (account : Account) (vote : Vote) :
    heldSequence table (cache.put account vote) = Function.update (heldSequence table cache) account vote.sequence := by
  funext query
  unfold heldSequence
  rw [Table.get_put]
  by_cases own : query = account
  · subst own
    rw [if_pos rfl, Function.update_self]
    rfl
  · rw [if_neg own, Function.update_of_ne own]

theorem max_settles (vote : Vote) : Settles (voteMax table cache vote) (fun _ => ¬ Written table) fun out =>
    out.1 = cache.put vote.account out.2 ∧ (out.2.sequence : WithBot (BitVec 64)) =
    max (heldSequence table cache vote.account) vote.sequence ∧
    (out.2 = vote ↔ heldSequence table cache vote.account ≤ vote.sequence) := by
  unfold voteMax
  refine settles_bind (current_settles vote.account) fun current held => ⟨rfl, ?_⟩
  rw [held]
  cases current with
  | none => exact ⟨(max_eq_right bot_le).symm, iff_of_true rfl bot_le⟩
  | some current =>
      dsimp only [sequenceOf]
      rw [WithBot.coe_le_coe, ← WithBot.coe_max]
      split
      · next newer =>
          have different : current ≠ vote := fun same => lt_irrefl _ (same ▸ newer)
          exact ⟨by rw [max_eq_left (le_of_lt newer)], iff_of_false different (not_le_of_gt newer)⟩
      · next older => exact ⟨by rw [max_eq_right (le_of_not_gt older)], iff_of_true rfl (le_of_not_gt older)⟩

structure Validated (env : Env) (table : Table Account Bytes) (cache : Table Account Vote) (vote : Vote)
    (out : Table Account Vote × VoteResult) : Prop where
  signed : Signed env vote
  kept : ∃ kept : Vote, out.1 = cache.put vote.account kept ∧ (kept.sequence : WithBot (BitVec 64)) = max
    (heldSequence table cache vote.account) vote.sequence
  valid : out.2.code ≠ .invalid
  accepts : out.2.code = .vote ↔ heldSequence table cache vote.account ≤ vote.sequence

theorem validate_settles (vote : Vote) : Settles (voteValidate env table cache vote) (fun _ => ¬ Written table) fun out =>
    (¬ Signed env vote ∧ out = (cache, ⟨.invalid, none⟩)) ∨ Validated env table cache vote out := by
  unfold voteValidate
  split
  · next bad => exact Or.inl ⟨fun signed => Bool.false_ne_true (signed.symm.trans bad), rfl⟩
  · next good =>
      refine settles_bind (max_settles vote) fun kept whole => Or.inr ?_
      obtain ⟨put, value, same⟩ := whole
      refine ⟨Bool.eq_false_of_not_eq_true good, ⟨kept.2, put, value⟩, ?_, ?_⟩
      · dsimp only
        split <;> decide
      · rw [← same]
        dsimp only
        split
        · next equal => exact iff_of_true rfl equal
        · next other => exact iff_of_false (by decide) other

theorem generate_settles (account : Account) (key : Hash → Signature) (block : Block) :
    Settles (voteGenerate env table cache account key block) (fun _ => ¬ Written table) fun out =>
      out.1 = cache.put account out.2 ∧ out.2.account = account ∧
      ∃ current, heldSequence table cache account = sequenceOf current ∧ out.2.sequence = (current.map Vote.sequence).getD 0 + 1 := by
  unfold voteGenerate
  exact settles_bind (current_settles account) fun current held => ⟨rfl, rfl, current, held, rfl⟩

theorem validated_held (vote : Vote) (out : Table Account Vote × VoteResult) (validated : Validated env table cache vote out) :
    heldSequence table out.1 = raise Vote.account Vote.sequence (heldSequence table cache) vote := by
  obtain ⟨kept, put, value⟩ := validated.kept
  rw [put, held_put, value]
  rfl

theorem revalidate_settles (vote : Vote) :
    Settles (electionValidates env table cache vote) (fun _ => Signed env vote → ¬ Written table) fun next =>
    ∃ kept : Vote, next = cache.put vote.account kept ∧ (kept.sequence : WithBot (BitVec 64)) =
    max (heldSequence table cache vote.account) vote.sequence := by
  unfold electionValidates
  refine settles_bind (settles_mono (validate_settles vote) (fun _ unwritten _ => unwritten) fun _ => id) fun out checked => ?_
  obtain ⟨unsigned, rfl⟩ | validated := checked
  · exact settles_stop (if_neg (not_not.mpr rfl)) fun signed => absurd signed unsigned
  · exact settles_step (ensure_true _ validated.valid) validated.kept

theorem written_get (order : List (Account × Vote)) (lists : cache.Lists order) (account : Account) :
    (writeVotes table order).get account = ((cache.get account).map Vote.serialize).or (table.get account) :=
  Table.put_all_get Vote.serialize cache order lists table account

theorem flush_held (order : List (Account × Vote)) (lists : cache.Lists order) :
    heldSequence (writeVotes table order) .empty = heldSequence table cache := by
  funext account
  unfold heldSequence
  rw [Table.get_empty, written_get order lists]
  cases cache.get account with
  | none => rfl
  | some vote =>
      obtain ⟨block, read⟩ := deserialize_vote vote
      simp [read, sequenceOf]

theorem flush_written (order : List (Account × Vote)) (lists : cache.Lists order) (written : Written table) :
    Written (writeVotes table order) := by
  intro account value stored
  rw [written_get order lists] at stored
  cases found : cache.get account with
  | none =>
      rw [found] at stored
      exact written account value stored
  | some vote =>
      rw [found] at stored
      exact ⟨vote, (Option.some.inj stored).symm⟩

end Marks

end Rai
