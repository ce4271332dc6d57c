import Raiblocks.Replay

set_option autoImplicit false

namespace Rai

open Kit

-- A block that passes all the checks of its kind and names the zero account as its
-- representative: `representation_add` then fails its assertion. The last condition on a
-- change is that the balance below it can be computed at all, for that comes first.
inductive CreditsNobody (env : Env) (s : Store) (block : Block) : Prop where
  | change (previous : Hash) (fields : block.hashables = .changeBlock previous 0) (fresh : blockExists s (block.hash env) = false)
      (head : frontierGet s previous ≠ 0)
      (signed : env.validateMessage (frontierGet s previous) (block.hash env) block.signature = false)
      (computes : ∃ fuel, ledgerBalance env fuel s previous ≠ .error .fuel) : CreditsNobody env s block
  | opens (source : Hash) (account : Account) (fields : block.hashables = .openBlock source 0 account)
      (fresh : blockExists s (block.hash env) = false) (signed : env.validateMessage account (block.hash env) block.signature = false)
      (unopened : s.accounts.get account = none) (waits : s.pending.get ⟨account, source⟩ ≠ none) (proper : account ≠ burnAccount) :
      CreditsNobody env s block

section Failing

variable {env : Env} {L : Lattice} {s : Store} [HashesApart env] (consistent : Consistent env L) (agrees : Agrees L s)
  (clock : Hash → Nat) (uninit : ProcessReturn)

include agrees in
theorem frontier_owner (h : Hash) (head : frontierGet s h ≠ 0) : ∃ n, L.Latest h n ∧ frontierGet s h = n.account := by
  by_contra none
  refine head (frontier_covered agrees h fun n latest => none ⟨n, latest, frontier_latest agrees h n latest⟩)

include consistent agrees

theorem change_fails (block : Block) (previous : Hash) (fields : block.hashables = .changeBlock previous 0)
    (fresh : blockExists s (block.hash env) = false) (head : frontierGet s previous ≠ 0)
    (signed : env.validateMessage (frontierGet s previous) (block.hash env) block.signature = false) (fuel : Nat)
    (computes : ledgerBalance env fuel s previous ≠ .error .fuel) : ledgerProcess env fuel clock uninit s block = .error .abort := by
  obtain ⟨n, latest, owner⟩ := frontier_owner agrees previous head
  have absent : L.get (block.hash env) = none := by
    by_contra present
    rw [(exists_iff agrees.blocks _).mpr present] at fresh
    cases fresh
  have nobody : NamesNobody block := ⟨Or.inr (by simp [Block.kind, fields]), by simp [Block.representative, fields]⟩
  obtain ⟨rest, asks, ends⟩ := change_asks_balance consistent agrees clock uninit block 0 fields absent latest (owner ▸ signed)
  obtain ⟨rank, top, ranked⟩ := exists_ranked consistent
  have settled := ledger_balance_settles consistent ranked (agrees_reads consistent agrees) fuel latest.1
  rw [asks]
  cases out : ledgerBalance env fuel s previous with
  | error stopped =>
      rw [out, settles_error] at settled
      exact absurd (out.trans (congrArg Except.error settled.1)) computes
  | ok balance =>
      rw [out, settles_ok] at settled
      rw [settled, bind_ok]
      cases ended : rest n.balance with
      | error stopped =>
          rw [ended, settles_error] at ends
          rw [ends.1]
      | ok result =>
          rw [ended, settles_ok] at ends
          obtain ⟨m, accepted⟩ := ends
          exact absurd (accepted.carries ▸ nobody) (entry_names _ m accepted.attach.entry)

theorem open_fails (block : Block) (source : Hash) (account : Account) (fields : block.hashables = .openBlock source 0 account)
    (fresh : blockExists s (block.hash env) = false) (signed : env.validateMessage account (block.hash env) block.signature = false)
    (unopened : s.accounts.get account = none) (waits : s.pending.get ⟨account, source⟩ ≠ none) (proper : account ≠ burnAccount)
    (fuel : Nat) : ledgerProcess env fuel clock uninit s block = .error .abort := by
  have nobody : NamesNobody block := ⟨Or.inl (by simp [Block.kind, fields]), by simp [Block.representative, fields]⟩
  have settled := process_open_settles consistent agrees clock uninit block source 0 account (· = .abort) fields fun _ => rfl
  simp only [ledgerProcess, fields]
  cases out : processOpen env clock uninit s block source account with
  | error stopped =>
      rw [out, settles_error] at settled
      rw [settled]
  | ok result =>
      -- It is neither accepted nor sent back by any of the checks.
      rw [out, settles_ok] at settled
      obtain ⟨n, accepted⟩ | ⟨_, refused⟩ := settled
      · exact absurd (accepted.carries ▸ nobody) (entry_names _ n accepted.attach.entry)
      · generalize result.2.code = code at refused
        cases refused with
        | old present =>
            rw [(exists_iff agrees.blocks _).mpr present] at fresh
            cases fresh
        | gapPrevious later => exact absurd (by simp [Block.kind, fields]) later
        | gapSource _ absent =>
            have spent : block.source = source := by simp [Block.source, fields]
            rw [agrees.pending, pending_unstored _ (spent ▸ absent)] at waits
            exact absurd rfl waits
        | fork before later => exact absurd (by simp [Block.kind, fields]) later
        | opened source' representative x m stored fields' =>
            rw [fields] at fields'
            injection fields' with _ _ owner
            have present := account_present consistent agrees x m stored
            rw [← owner, unopened] at present
            cases present
        | badSignature before later => exact absurd (by simp [Block.kind, fields]) later
        | badOpening source' representative account' fields' bad =>
            rw [fields] at fields'
            injection fields' with _ _ owner
            rw [← owner, signed] at bad
            cases bad
        | overspend _ _ _ _ fields' => rw [fields] at fields'; cases fields'
        | unreceivable _ _ _ fields' => rw [fields] at fields'; cases fields'
        | unopenable source' representative account' fields' _ nothing =>
            rw [fields] at fields'
            injection fields' with origin _ owner
            rw [agrees.pending, origin, owner] at waits
            exact absurd nothing waits
        | openedBurnAccount source' representative fields' =>
            rw [fields] at fields'
            injection fields' with _ _ owner
            exact absurd owner proper

theorem abort_credits_nobody (block : Block) (fuel : Nat) (aborted : ledgerProcess env fuel clock uninit s block = .error .abort) :
    CreditsNobody env s block := by
  obtain ⟨rank, top, ranked⟩ := exists_ranked consistent
  have settled := ledger_process_settles consistent agrees clock uninit fuel block ranked
  rw [aborted, settles_error] at settled
  obtain starved | ⟨_, kind, nobody⟩ := settled
  · cases starved.1
  cases fields : block.hashables with
  | openBlock source representative account =>
      obtain rfl : representative = 0 := by simpa [Block.representative, fields] using nobody
      simp only [ledgerProcess, fields, processOpen] at aborted
      obtain ⟨fresh, aborted⟩ := check_passed aborted
      obtain ⟨_, aborted⟩ := check_passed aborted
      obtain ⟨signed, aborted⟩ := check_passed aborted
      obtain ⟨unopened, aborted⟩ := check_passed aborted
      cases waits : s.pending.get ⟨account, source⟩ with
      | none =>
          rw [waits] at aborted
          cases aborted
      | some pending =>
          rw [waits] at aborted
          obtain ⟨proper, _⟩ := check_passed aborted
          exact CreditsNobody.opens source account fields (by simpa using fresh) (by simpa using signed) (by simpa using unopened)
            (by simp [waits]) proper
  | changeBlock previous representative =>
      obtain rfl : representative = 0 := by simpa [Block.representative, fields] using nobody
      have peeled := aborted
      simp only [ledgerProcess, fields, processChange] at peeled
      obtain ⟨fresh, peeled⟩ := check_passed peeled
      obtain ⟨_, peeled⟩ := check_passed peeled
      obtain ⟨head, peeled⟩ := check_passed peeled
      obtain ⟨n, latest, owner⟩ := frontier_owner agrees previous head
      obtain ⟨time, known⟩ := account_latest consistent agrees previous n latest
      rw [owner, known, require_some, bind_ok, ensure_true _ (Note.info_head _ _ _), bind_ok] at peeled
      obtain ⟨signed, _⟩ := check_passed peeled
      have valid : env.validateMessage n.account (block.hash env) block.signature = false := by simpa using signed
      obtain ⟨rest, asks, _⟩ := change_asks_balance consistent agrees clock uninit block 0 fields
        (by simpa [exists_iff agrees.blocks] using fresh) latest valid
      refine CreditsNobody.change previous fields (by simpa using fresh) head (owner ▸ valid) ⟨fuel, fun starved => ?_⟩
      rw [asks, starved, bind_error] at aborted
      cases aborted
  | _ => simp [Block.kind, fields] at kind

end Failing

-- The assertions hold for every block but those that pass all checks and credit the zero account.
theorem process_aborts_only_crediting_nobody (env : Env) (apart : HashesApart env) (s : Store)
    (reached : Reachable env s) (block : Block) :
    (∀ fuel clock uninit, ledgerProcess env fuel clock uninit s block ≠ .error .abort) ↔ ¬ CreditsNobody env s block := by
  obtain ⟨L, consistent, agrees⟩ := reachable_agrees reached
  constructor
  · intro holds credits
    cases credits with
    | change previous fields fresh head signed computes =>
        obtain ⟨fuel, computes⟩ := computes
        exact holds fuel (fun _ => 0) ⟨.progress, 0, 0, 0⟩
          (change_fails consistent agrees _ _ block previous fields fresh head signed fuel computes)
    | opens source account fields fresh signed unopened waits proper =>
        exact holds 0 (fun _ => 0) ⟨.progress, 0, 0, 0⟩
          (open_fails consistent agrees _ _ block source account fields fresh signed unopened waits proper 0)
  · intro fine fuel clock uninit aborted
    exact fine (abort_credits_nobody consistent agrees clock uninit block fuel aborted)

theorem process_aborts_only_crediting_nobody_sample : ∃ s, Replay sampleEnv sampleLog s ∧
    ∀ fuel clock uninit, ledgerProcess sampleEnv fuel clock uninit s sampleSend ≠ .error .abort := by
  obtain ⟨s, replay⟩ := sample_replayed
  refine ⟨s, replay, (process_aborts_only_crediting_nobody sampleEnv sample_apart s (replay_reachable replay) _).mpr ?_⟩
  rintro (⟨_, fields, _⟩ | ⟨_, _, fields, _⟩) <;> cases fields

def changeToNobody : Block := ⟨.changeBlock (genesisHash sampleEnv) 0, 0, 0⟩

-- Genesis gives its weight to the zero account.
theorem change_to_nobody_aborts : ∃ s, Replay sampleEnv [] s ∧
    ledgerProcess sampleEnv 5 (fun _ => 0) ⟨.progress, 0, 0, 0⟩ s changeToNobody = .error .abort := by
  obtain ⟨s, _, replay, stopped⟩ := replay_checked sampleEnv 5 [] (fun s =>
    (ledgerProcess sampleEnv 5 (fun _ => 0) ⟨.progress, 0, 0, 0⟩ s changeToNobody).map (fun _ => ()) = .error .abort)
      (by decide +kernel)
  refine ⟨s, replay, ?_⟩
  cases out : ledgerProcess sampleEnv 5 (fun _ => 0) ⟨.progress, 0, 0, 0⟩ s changeToNobody with
  | ok result => rw [out] at stopped; cases stopped
  | error fault =>
      rw [out] at stopped
      exact congrArg Except.error (Except.error.inj stopped)

end Rai
