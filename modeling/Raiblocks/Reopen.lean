import Raiblocks.History
import Raiblocks.Supply

set_option autoImplicit false

namespace Rai

open Kit

-- `block_store::block_store` on the database of an earlier store of the current version. The caches were
-- in memory, and the constructor ends by writing a zero checksum.
def reopen (s : Store) : Store := checksumPut { s with uncheckedCache := [] } 0

def ledgerChecksum (s : Store) : Except Fault Hash := require (checksumGet s)

instance xorCommutative : Std.Commutative (fun a b : Hash => a ^^^ b) := ⟨BitVec.xor_comm⟩

instance xorAssociative : Std.Associative (fun a b : Hash => a ^^^ b) := ⟨BitVec.xor_assoc⟩

namespace Store

def headSum (s : Store) : Hash := s.accounts.fold (· ^^^ ·) 0 fun _ info => info.head

end Store

-- A ledger whose database is closed and opened again only in states that `closable` allows.
inductive Session (env : Env) (closable : Store → Prop) : Store → Prop where
  | genesis (now : Nat) (s : Store) (started : genesisInitialize env Store.fresh now = .ok s) : Session env closable s
  | ledger (s s' : Store) (before : Session env closable s) (moved : LedgerStep env (fun block => block.kind ≠ .sendBlockV2) s s') :
      Session env closable s'
  | reopen (s : Store) (before : Session env closable s) (closes : closable s) : Session env closable (reopen s)

section Checksum

variable {env : Env} [HashesApart env]

theorem head_sum_digest (L : Lattice) (s : Store) (consistent : Consistent env L) (agrees : Agrees L s) : s.headSum = L.digest := by
  have unit : ∀ a : Hash, a ^^^ 0 = a := fun _ => BitVec.xor_zero
  exact accounts_fold consistent agrees (A := Hash) (· ^^^ ·) 0 unit fun head _ _ => head

theorem reopen_agrees (L : Lattice) (s : Store) (agrees : Agrees L s) (zero : L.digest = 0) : Agrees L (reopen s) where
  blocks := agrees.blocks
  accounts := agrees.accounts
  frontiers := agrees.frontiers
  pending := agrees.pending
  checkpoints := agrees.checkpoints
  weights := agrees.weights
  checksum := by
    change s.checksum.put 0 0 = Table.empty.put 0 L.digest
    rw [agrees.checksum, Table.put_put, zero]

theorem session_agrees (s : Store) (session : Session env (fun s => s.headSum = 0) s) : ∃ L, Consistent env L ∧ Agrees L s := by
  induction session with
  | genesis now s started => exact ⟨_, consistent_genesis env _, (genesis_started started).agrees⟩
  | ledger s s' _ moved ih =>
      obtain ⟨L, consistent, agrees⟩ := ih
      obtain ⟨K, moves⟩ := step_moves L s s' consistent agrees moved
      exact ⟨K, moves.consistent, moves.agrees⟩
  | reopen s _ closes ih =>
      obtain ⟨L, consistent, agrees⟩ := ih
      exact ⟨L, consistent, reopen_agrees L s agrees (head_sum_digest L s consistent agrees ▸ closes)⟩

-- The checksum is right as long as the database is only opened again when it should be zero. At any
-- other time it is wrong right after.
omit [HashesApart env] in
theorem checksum_persistent (apart : HashesApart env) (s : Store) (session : Session env (fun s => s.headSum = 0) s) :
    ledgerChecksum s = .ok s.headSum ∧ (ledgerChecksum (reopen s) = .ok (reopen s).headSum ↔ s.headSum = 0) := by
  obtain ⟨L, consistent, agrees⟩ := session_agrees s session
  constructor
  · rw [ledgerChecksum, checksumGet, agrees.checksum, Table.get_put_self, head_sum_digest L s consistent agrees, require_some]
  · have zeroed : ledgerChecksum (reopen s) = .ok 0 := by
      rw [ledgerChecksum, checksumGet, reopen, checksumPut, Table.get_put_self, require_some]
    have kept : (reopen s).headSum = s.headSum := rfl
    rw [zeroed, kept]
    exact ⟨fun same => (Except.ok.inj same).symm, fun zero => by rw [zero]⟩

end Checksum

theorem genesis_head_sum (env : Env) [HashesApart env] (now : Nat) (s : Store)
    (started : genesisInitialize env Store.fresh now = .ok s) : s.headSum = genesisHash env := by
  rw [head_sum_digest _ s (consistent_genesis env _) (genesis_started started).agrees, genesis_digest env _]

theorem replay_session (env : Env) (closable : Store → Prop) (log : List Block) (s : Store)
    (permitted : ∀ block ∈ log, block.kind ≠ .sendBlockV2) (replay : Replay env log s) : Session env closable s := by
  induction replay with
  | genesis now s started => exact Session.genesis now s started
  | process fuel clock uninit log s block out _ returned _ ih =>
      have before := ih fun b member => permitted b (List.mem_append_left _ member)
      exact Session.ledger s out.1 before (LedgerStep.process fuel clock uninit s block out (permitted block (by simp)) returned)

-- The hash of this block is the sum of the other two heads.
def sampleOpenLevel : Block := ⟨.openBlock (sampleSendMore.hash sampleEnv) (sampleKey 866882) (sampleKey 2), 0, 0⟩

-- Three accounts whose heads cancel, so that the database can be opened again.
theorem checksum_persistent_sample : ∃ s, Replay sampleEnv [sampleSend, sampleOpen, sampleSendMore, sampleOpenLevel] s ∧
    Session sampleEnv (fun s => s.headSum = 0) (reopen s) ∧ ledgerChecksum (reopen s) = .ok (reopen s).headSum := by
  obtain ⟨s, _, replay, level⟩ := replay_checked sampleEnv 20 [sampleSend, sampleOpen, sampleSendMore, sampleOpenLevel]
    (fun s => s.headSum = 0)
    (by decide +kernel)
  have session := replay_session sampleEnv (fun s => s.headSum = 0) _ s (by decide) replay
  have again := Session.reopen s session level
  exact ⟨s, replay, again, (checksum_persistent sample_apart (reopen s) again).1⟩

-- The genesis ledger, closed and opened again.
theorem checksum_forgotten : ∃ s, genesisInitialize sampleEnv Store.fresh 0 = .ok s ∧ ledgerChecksum s = .ok (genesisHash sampleEnv) ∧
    ledgerChecksum (reopen s) = .ok 0 ∧ (reopen s).headSum = genesisHash sampleEnv ∧ genesisHash sampleEnv ≠ 0 := by
  obtain ⟨s, started, plain⟩ := genesis_initial sampleEnv 0
  refine ⟨s, started, ?_, ?_, genesis_head_sum sampleEnv 0 s started, HashesApart.zero _⟩
  · rw [ledgerChecksum, checksumGet, plain.agrees.checksum, Table.get_put_self, genesis_digest sampleEnv _, require_some]
  · rw [ledgerChecksum, checksumGet, reopen, checksumPut, Table.get_put_self, require_some]

end Rai
