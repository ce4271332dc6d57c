import Raiblocks.Processor
import Raiblocks.Replay
import Raiblocks.Votes

set_option autoImplicit false

namespace Rai

open Kit

-- What a processor leaves of the record it started with. A refusal sets the code only.
def Kind.filled (kind : Kind) (uninit result : ProcessReturn) : ProcessReturn :=
  if result.code ≠ .progress then { uninit with code := result.code }
  else
    match kind with
    | .sendBlock => result
    | .sendBlockV2 => { result with amount := uninit.amount }
    | _ => { result with pendingAccount := uninit.pendingAccount }

section Filled

variable (env : Env) (fuel : Nat) (clock : Hash → Nat) (u v : ProcessReturn) (s : Store) (block : Block)

theorem process_change_filled (previous : Hash) : processChange env fuel clock v s block previous =
    (processChange env fuel clock u s block previous).map fun out => (out.1, Kind.changeBlock.filled v out.2) := by
  simp only [processChange, apply_ite (Except.map _), bind_mapped]
  rfl

theorem process_send_filled (previous : Hash) (destination : Account) (balance : Amount) :
    processSend env clock v s block previous destination balance =
      (processSend env clock u s block previous destination balance).map fun out => (out.1, Kind.sendBlock.filled v out.2) := by
  simp only [processSend, apply_ite (Except.map _), bind_mapped]
  rfl

theorem process_send_v2_filled (previous : Hash) (destination : Account) (action : Bytes) :
    processSendV2 env fuel clock v s block previous destination action =
      (processSendV2 env fuel clock u s block previous destination action).map fun out => (out.1, Kind.sendBlockV2.filled v out.2) := by
  simp only [processSendV2, apply_ite (Except.map _), bind_mapped]
  rfl

theorem process_receive_filled (previous source : Hash) : processReceive env clock v s block previous source =
    (processReceive env clock u s block previous source).map fun out => (out.1, Kind.receiveBlock.filled v out.2) := by
  simp only [processReceive, apply_ite (Except.map _)]
  cases blockExists s previous <;> cases s.pending.get ⟨frontierGet s previous, source⟩ <;> simp only [bind_mapped] <;> rfl

theorem process_open_filled (source : Hash) (account : Account) : processOpen env clock v s block source account =
    (processOpen env clock u s block source account).map fun out => (out.1, Kind.openBlock.filled v out.2) := by
  simp only [processOpen, apply_ite (Except.map _)]
  cases s.pending.get ⟨account, source⟩ <;> simp only [apply_ite (Except.map _), bind_mapped] <;> rfl

theorem ledger_process_filled : ledgerProcess env fuel clock v s block =
    (ledgerProcess env fuel clock u s block).map fun out => (out.1, block.kind.filled v out.2) := by
  rcases block with ⟨hashables, signature, work⟩
  cases hashables with
  | sendBlock previous destination balance => exact process_send_filled env clock u v s _ previous destination balance
  | receiveBlock previous source => exact process_receive_filled env clock u v s _ previous source
  | openBlock source representative account => exact process_open_filled env clock u v s _ source account
  | changeBlock previous representative => exact process_change_filled env fuel clock u v s _ previous
  | sendBlockV2 previous destination action => exact process_send_v2_filled env fuel clock u v s _ previous destination action

end Filled

def ProcessReturn.notice (result : ProcessReturn) : Account × Amount × Account := (result.account, result.amount, result.pendingAccount)

def Block.SendsTo (block : Block) (account : Account) : Prop :=
  (∃ previous balance, block.hashables = .sendBlock previous account balance) ∨
    ∃ previous action, block.hashables = .sendBlockV2 previous account action

theorem observed_pending (block : Block) (result : ProcessReturn) (account : Account)
    (seen : Observation.accountBalance account true ∈ observe (block, result)) : account = result.pendingAccount := by
  unfold observe at seen
  dsimp only at seen
  split at seen
  · split at seen
    · simpa using seen
    · simp at seen
  · simp at seen

theorem sent_pending_account (env : Env) (clock : Hash → Nat) (uninit : ProcessReturn) (s : Store) (block : Block) (previous : Hash)
    (destination : Account) (balance : Amount) :
    Settles (processSend env clock uninit s block previous destination balance) (fun _ => True)
      fun out => out.2.code = .progress → out.2.pendingAccount = destination := by
  unfold processSend
  dsimp only
  refine settles_unless (fun _ => ProcessResult.noConfusion) fun _ => ?_
  refine settles_unless (fun _ => ProcessResult.noConfusion) fun _ => ?_
  refine settles_unless (fun _ => ProcessResult.noConfusion) fun _ => ?_
  refine settles_unless (fun _ => ProcessResult.noConfusion) fun _ => ?_
  refine settles_bind (settles_any _) fun info _ => settles_bind (settles_any _) fun _ _ => ?_
  refine settles_unless (fun _ => ProcessResult.noConfusion) fun _ => ?_
  refine settles_bind (settles_any _) fun _ _ => settles_bind (settles_any _) fun _ _ => ?_
  exact settles_bind (settles_any _) fun _ _ => settles_bind (settles_any _) fun _ _ _ => rfl

section Notices

variable (env : Env) (apart : HashesApart env) (s : Store) (reached : Reachable env s) (fuel : Nat) (clock : Hash → Nat)
  (uninit : ProcessReturn)
  (block : Block) (out : Store × ProcessReturn) (returned : ledgerProcess env fuel clock uninit s block = .ok out)
  (progress : out.2.code = .progress)

include apart reached returned progress

theorem sent_amount (previous : Hash) (destination : Account) (balance : Amount)
    (fields : block.hashables = .sendBlock previous destination balance) :
    out.2.amount.toNat =
    ((ledgerAccountBalance out.1 out.2.account).toNat - (ledgerAccountBalance s out.2.account).toNat : Int).natAbs := by
  obtain ⟨L, consistent, agrees⟩ := reachable_agrees reached
  obtain ⟨n, accepted⟩ := processed_progress clock out consistent agrees returned progress
  have entry := accepted.attach.entry
  rw [Entry, accepted.carries, fields] at entry
  obtain ⟨before, stored, enough, same⟩ := entry
  have owner : n.account = before.account := (congrArg Note.account same :)
  have left : n.balance = balance := (congrArg Note.balance same :)
  have amount : n.amount = before.balance - balance := (congrArg Note.amount same :)
  have above : n.block.previous = previous := by rw [accepted.carries, Block.previous, fields]
  have grown := consistent_attach consistent accepted.attach
  obtain ⟨time, known⟩ := account_latest consistent agrees _ before
    (latest_before consistent accepted.attach (above.symm ▸ stored) owner)
  obtain ⟨time', known'⟩ := account_latest grown accepted.agrees _ n (latest_attached consistent accepted.attach)
  have old : ledgerAccountBalance s out.2.account = before.balance := by
    rw [ledgerAccountBalance, accepted.account, owner, known]
    rfl
  have new : ledgerAccountBalance out.1 out.2.account = balance := by
    rw [ledgerAccountBalance, accepted.account, known', ← left]
    rfl
  have legacy : block.kind ≠ .sendBlockV2 := by simp [Block.kind, fields]
  rw [old, new, accepted.amount legacy, amount, BitVec.toNat_sub_of_le enough]
  rw [BitVec.le_def] at enough
  omega

theorem notices_defined_iff :
    ((∀ u v, (ledgerProcess env fuel clock u s block).map (fun out => out.2.notice) =
        (ledgerProcess env fuel clock v s block).map fun out => out.2.notice) ∧
      ∀ u out, ledgerProcess env fuel clock u s block = .ok out →
        out.2.amount.toNat =
        ((ledgerAccountBalance out.1 out.2.account).toNat - (ledgerAccountBalance s out.2.account).toNat : Int).natAbs ∧
        ∀ account, .accountBalance account true ∈ observe (block, out.2) → block.SendsTo account) ↔
    block.kind = .sendBlock := by
  have runs (v : ProcessReturn) : ledgerProcess env fuel clock v s block = .ok (out.1, block.kind.filled v out.2) := by
    rw [ledger_process_filled env fuel clock uninit v s block, returned]
    rfl
  have notice (v : ProcessReturn) : (ledgerProcess env fuel clock v s block).map (fun out => out.2.notice) =
      .ok (block.kind.filled v out.2).notice := by
    rw [runs v]
    rfl
  constructor
  · rintro ⟨same, _⟩
    have equal := same ⟨.progress, 0, 0, 0⟩ ⟨.progress, 0, 1, 1⟩
    rw [notice, notice] at equal
    have fields := Prod.mk.inj (Prod.mk.inj (Except.ok.inj equal)).2
    cases kind : block.kind <;> simp [kind, Kind.filled, progress] at fields ⊢
  · intro kind
    have filled (v : ProcessReturn) : block.kind.filled v out.2 = out.2 := by simp [kind, Kind.filled, progress]
    refine ⟨fun u v => by rw [notice, notice, filled, filled], fun u out' returned' => ?_⟩
    rw [runs u, filled] at returned'
    obtain rfl := Except.ok.inj returned'
    obtain ⟨previous, destination, balance, fields⟩ : ∃ previous destination balance,
      block.hashables = .sendBlock previous destination balance := by
      cases fields : block.hashables <;> simp [Block.kind, fields] at kind ⊢
    refine ⟨sent_amount env apart s reached fuel clock uninit block out returned progress previous destination balance fields, ?_⟩
    intro account seen
    rw [ledgerProcess, fields] at returned
    have sentTo := settles_returned (sent_pending_account env clock uninit s block previous destination balance) returned progress
    have told := observed_pending block out.2 account seen
    exact Or.inl ⟨previous, balance, by rw [fields, told, sentTo]⟩

end Notices

theorem notices_defined_sample : ∃ s out, Replay sampleEnv [] s ∧
    ledgerProcess sampleEnv 5 (fun _ => 0) ⟨.old, 0, 0, 0⟩ s sampleSend = .ok out ∧
    out.2.amount.toNat =
    ((ledgerAccountBalance out.1 out.2.account).toNat - (ledgerAccountBalance s out.2.account).toNat : Int).natAbs := by
  obtain ⟨s, _, replay, processed⟩ := replay_checked sampleEnv 5 [] (fun s =>
    (ledgerProcess sampleEnv 5 (fun _ => 0) ⟨.old, 0, 0, 0⟩ s sampleSend).map (fun out => out.2.code) = .ok .progress)
      (by decide +kernel)
  obtain ⟨out, returned, progress⟩ := map_returned processed
  have defined :=
    (notices_defined_iff sampleEnv sample_apart s (replay_reachable replay) _ _ _ sampleSend out returned progress).mpr rfl
  exact ⟨s, out, replay, returned, (defined.2 _ out returned).1⟩

-- The opening block of an account: whatever the record held is announced as the destination of a send.
theorem open_notice_arbitrary : ∃ s plain other, Replay sampleEnv [sampleSend] s ∧
    ledgerProcess sampleEnv 5 (fun _ => 0) ⟨.old, 0, 0, 0⟩ s sampleOpen = .ok plain ∧
    ledgerProcess sampleEnv 5 (fun _ => 0) ⟨.old, 0, 0, 77⟩ s sampleOpen = .ok other ∧
    plain.2.code = .progress ∧ plain.2.notice ≠ other.2.notice ∧
    .accountBalance 77 true ∈ observe (sampleOpen, other.2) ∧ ¬ sampleOpen.SendsTo 77 := by
  obtain ⟨s, _, replay, processed⟩ := replay_checked sampleEnv 5 [sampleSend] (fun s =>
    (ledgerProcess sampleEnv 5 (fun _ => 0) ⟨.old, 0, 0, 0⟩ s sampleOpen).map (fun out => out.2) =
      .ok ⟨.progress, sampleKey 1, genesisAmount - 5, 0⟩) (by decide +kernel)
  obtain ⟨⟨opened, _⟩, returned, rfl⟩ := map_returned processed
  have again := ledger_process_filled sampleEnv 5 (fun _ => 0) ⟨.old, 0, 0, 0⟩ ⟨.old, 0, 0, 77⟩ s sampleOpen
  rw [returned] at again
  refine ⟨s, _, (opened, ⟨.progress, sampleKey 1, genesisAmount - 5, 77⟩), replay, returned, again, rfl, ?_, ?_, ?_⟩
  · dsimp only
    decide
  · exact List.mem_cons_of_mem _ (List.mem_cons_of_mem _ List.mem_cons_self)
  · rintro (⟨_, _, same⟩ | ⟨_, _, same⟩) <;> exact Hashables.noConfusion same

end Rai
