import Raiblocks.Replay

set_option autoImplicit false

namespace Rai

open Kit

section Contracts

variable {env : Env} {L : Lattice} {s : Store} [HashesApart env] (consistent : Consistent env L) (agrees : Agrees L s)
include agrees

theorem contract_stored (h : Hash) : (s.blocks .sendBlockV2).get h ≠ none ↔ ∃ n, L.get h = some n ∧ n.block.kind = .sendBlockV2 := by
  rw [agrees.blocks .sendBlockV2 h]
  constructor
  · intro present
    cases found : L.get h with
    | none => exact absurd (raw_value_none L L.succ _ h found) present
    | some n =>
        refine ⟨n, rfl, ?_⟩
        by_contra other
        exact present (raw_value_other L L.succ _ h n found other)
  · rintro ⟨n, stored, contract⟩
    rw [← contract, raw_value_own L L.succ h n stored]
    exact Option.some_ne_none _

include consistent

theorem contract_balance_diverges (h : Hash) (n : Note) (stored : L.get h = some n) (contract : n.block.kind = .sendBlockV2) :
    Diverges fun fuel => ledgerBalance env fuel s h :=
  fun fuel => balance_contract env L s h n consistent (agrees_reads consistent agrees) stored contract fuel 0

theorem contract_rollback_diverges (clock : Hash → Nat) (h : Hash) (n : Note) (stored : L.get h = some n)
    (contract : n.block.kind = .sendBlockV2) : Diverges fun fuel => ledgerRollback env clock fuel s h := by
  intro fuel
  have later : h ≠ genesisHash env := by
    rintro rfl
    obtain ⟨stamp, rfl⟩ := stored_genesis consistent n stored
    cases contract
  obtain ⟨rank, top, ranked⟩ := exists_ranked consistent
  have settled := ledger_rollback_settles env clock L s h n rank top fuel ⟨consistent, agrees, ranked⟩ stored later
  dsimp only
  cases out : ledgerRollback env clock fuel s h with
  | error stopped =>
      rw [out, settles_error] at settled
      rw [settled.1]
  | ok s' =>
      rw [out, settles_ok] at settled
      obtain ⟨K, cut⟩ := settled
      exact absurd contract (cut.only h n stored cut.removed).2.plain

theorem contract_change_diverges (clock : Hash → Nat) (uninit : ProcessReturn) (block : Block) (previous : Hash)
    (representative : Account) (n : Note) (fields : block.hashables = .changeBlock previous representative)
    (fresh : L.get (block.hash env) = none) (latest : L.Latest previous n) (contract : n.block.kind = .sendBlockV2)
    (signed : env.validateMessage n.account (block.hash env) block.signature = false) :
    Diverges fun fuel => ledgerProcess env fuel clock uninit s block := by
  intro fuel
  obtain ⟨rest, asks, _⟩ := change_asks_balance consistent agrees clock uninit block representative fields fresh latest signed
  have never := contract_balance_diverges consistent agrees previous n latest.1 contract fuel
  dsimp only at never ⊢
  rw [asks, never, bind_error]

end Contracts

section Genesis

variable {env : Env} {clock : Hash → Nat}

theorem representation_add_blocks (s : Store) (h : Hash) (amount : Amount) :
    Settles (representationAdd s h amount) (fun _ => True) fun s' => s'.blocks = s.blocks :=
  settles_bind (settles_any _) fun _ _ => settles_bind (settles_any _) fun _ _ => settles_bind (settles_any _) fun _ _ => rfl

theorem checksum_update_blocks (s : Store) (h : Hash) :
    Settles (checksumUpdate s h) (fun _ => True) fun s' => s'.blocks = s.blocks :=
  settles_bind (settles_any _) fun _ _ => rfl

theorem change_latest_blocks (s : Store) (account : Account) (hash repBlock : Hash) (balance : Amount) (count : Nat) :
    Settles (changeLatest clock s account hash repBlock balance count) (fun _ => True) fun s' => s'.blocks = s.blocks := by
  have entered : ∀ (t : Store) (info : AccountInfo), t.blocks = s.blocks →
      Settles (if hash ≠ 0 then
        checksumUpdate (if count % blockInfoMax = 0 then blockInfoPut (accountPut t account info) hash ⟨account, balance⟩
          else accountPut t account info) hash
        else accountDel t account) (fun _ => True) fun s' => s'.blocks = s.blocks := by
    intro t info kept
    split
    · refine settles_mono (checksum_update_blocks _ hash) (fun _ => id) fun u same => ?_
      rw [same]
      split <;> exact kept
    · exact settles_bind (settles_any _) fun _ _ => kept
  unfold changeLatest
  cases s.accounts.get account with
  | some info => exact settles_bind (checksum_update_blocks s info.head) fun t kept => settles_step rfl (entered t _ kept)
  | none =>
      refine settles_bind (settles_any _) fun _ _ => settles_bind (settles_any _) fun _ _ => settles_bind (settles_any _) fun _ _ => ?_
      exact settles_step rfl (entered s _ rfl)

theorem block_del_exists (s : Store) (h x : Hash) :
    Settles (blockDel s h) (fun _ => True) fun s' => blockExists s' x = true → blockExists s x = true := by
  refine settles_bind (settles_any _) fun kind _ => ?_
  rw [settles_ok]
  intro present
  obtain ⟨other, listed, row⟩ := List.any_eq_true.mp present
  refine List.any_eq_true.mpr ⟨other, listed, ?_⟩
  by_cases own : other = kind
  · subst own
    simp only [Function.update_self, Table.get_del] at row
    split at row
    · cases row
    · exact row
  · simpa only [Function.update_of_ne own] using row

theorem account_needs_block (fuel : Nat) (s : Store) (h : Hash) :
    Settles (ledgerAccount fuel s h) (fun _ => True) fun _ => blockExists s h = true := by
  by_cases present : blockExists s h = true
  · exact settles_mono (settles_any _) (fun _ => id) fun _ _ => present
  · rw [ledgerAccount, ensure, if_neg present]
    trivial

-- The sender is looked up last, so an open block is only undone while its source is a stored block.
theorem undo_open_source (fuel : Nat) (s : Store) (block : Block) (source : Hash) :
    Settles (undoOpen env fuel clock s block source) (fun _ => True) fun _ => blockExists s source = true := by
  unfold undoOpen
  refine settles_bind (settles_any _) fun _ _ => settles_bind (settles_any _) fun _ _ =>
    settles_bind (settles_any _) fun current _ => ?_
  refine settles_bind (representation_add_blocks s current _) fun weighed kept => ?_
  refine settles_bind (change_latest_blocks weighed _ _ _ _ _) fun closed kept' => ?_
  refine settles_bind (block_del_exists closed _ source) fun removed fewer => ?_
  refine settles_bind (account_needs_block fuel removed source) fun _ present => ?_
  refine settles_mono (settles_any _) (fun _ => id) fun _ _ => ?_
  have before := fewer present
  rwa [blockExists, kept', kept] at before

-- The source of genesis is an account number: its rollback goes on until it fails.
theorem genesis_loop (rank : Hash → Nat) (top fuel : Nat) [HashesApart env] (M : Lattice) (s : Store)
    (stands : Stands env rank top M s) :
    Settles (rollbackLoop env clock fuel s (genesisAccount env.network) (genesisHash env)) (fun _ => True) fun _ => False := by
  induction fuel generalizing M s with
  | zero => trivial
  | succ fuel ih =>
      have consistent := stands.consistent
      obtain ⟨stamp, first⟩ := consistent.genesis
      obtain ⟨t, head, found, owner, last, _⟩ := exists_latest consistent _ _ first
      obtain ⟨time, known⟩ := account_latest consistent stands.agrees t head ⟨found, last⟩
      obtain ⟨block, read, same⟩ := get_reads_as stands.agrees.blocks t head found
      have owned : head.account = genesisAccount env.network := owner
      rw [owned] at known
      rw [rollbackLoop, if_pos (exists_stored stands.agrees.blocks first), known, require_some, bind_ok]
      simp only [Note.info_head]
      rw [read, bind_ok, require_some, bind_ok]
      by_cases alone : t = genesisHash env
      · subst alone
        cases first.symm.trans found
        rw [reads_as_exact _ _ same Kind.noConfusion]
        cases fuel with
        | zero => trivial
        | succ fuel =>
            refine settles_bind (undo_open_source fuel s _ _) fun _ present => ?_
            have number : AccountNumber env (genesisAccount env.network) := stored_account consistent _ _ first
            rw [exists_absent stands.agrees.blocks _ (account_not_stored consistent _ number)] at present
            cases present
      · have visited := (rollback_spec env clock rank top fuel).visit M s t head block stands ⟨found, last⟩ alone same
        refine settles_bind (settles_mono visited (fun _ _ => trivial) fun _ => id) ?_
        rintro s' (⟨_, rfl⟩ | ⟨K, cut⟩)
        · exact ih M s' stands
        · exact ih K s' (cut_stands rank stands cut)

theorem genesis_stays [HashesApart env] (M : Lattice) (s s' : Store) (fuel : Nat) (consistent : Consistent env M)
    (agrees : Agrees M s) : ledgerRollback env clock fuel s (genesisHash env) ≠ .ok s' := by
  intro returned
  obtain ⟨rank, top, ranked⟩ := exists_ranked consistent
  obtain ⟨stamp, first⟩ := consistent.genesis
  have never : Settles (ledgerRollback env clock fuel s (genesisHash env)) (fun _ => True) fun _ => False := by
    cases fuel with
    | zero => trivial
    | succ fuel =>
        have present := exists_stored agrees.blocks first
        have owner := ledger_account_settles consistent ranked (agrees_walks agrees) fuel _ _ first present
        rw [ledgerRollback, ensure_true _ present, bind_ok]
        exact settles_value (settles_mono owner (fun _ _ => trivial) fun _ => id)
          (genesis_loop rank top fuel M s ⟨consistent, agrees, ranked⟩)
  exact settles_returned never returned

end Genesis

-- Without contract blocks everything the ledger does comes to an end, with one exception: the code of a contract that is
-- handed in may keep the interpreter. A contract block's balance and its rollback never come to an end.
theorem ledger_work_terminates (env : Env) (apart : HashesApart env) (s : Store) (reached : Reachable env s) (clock : Hash → Nat)
    (uninit : ProcessReturn) :
    ((∀ h, (s.blocks .sendBlockV2).get h = none) →
      (∀ h, blockExists s h = true → h ≠ genesisHash env →
        (Returns fun fuel => ledgerBalance env fuel s h) ∧ Returns fun fuel => ledgerRollback env clock fuel s h) ∧
      ∀ block, block.LoadReturns env → Terminates fun fuel => ledgerProcess env fuel clock uninit s block) ∧
    ∀ h, (s.blocks .sendBlockV2).get h ≠ none →
      (Diverges fun fuel => ledgerBalance env fuel s h) ∧ Diverges fun fuel => ledgerRollback env clock fuel s h := by
  obtain ⟨L, consistent, agrees⟩ := reachable_agrees reached
  obtain ⟨rank, top, ranked⟩ := exists_ranked consistent
  constructor
  · intro none
    have legacy : Legacy L := fun h n stored contract => (contract_stored agrees h).mpr ⟨n, stored, contract⟩ (none h)
    constructor
    · intro h present later
      obtain ⟨n, stored⟩ := Option.ne_none_iff_exists'.mp ((exists_iff agrees.blocks h).mp present)
      constructor
      · exact returns_settled (fun fuel => ledger_balance_settles consistent ranked (agrees_reads consistent agrees) fuel
          stored) legacy
      · exact returns_settled (fun fuel => ledger_rollback_settles env clock L s h n rank top fuel ⟨consistent, agrees, ranked⟩
          stored later) legacy
    · rintro block ⟨steps, loads⟩
      refine ⟨max (4 * top) steps, fun fuel enough stuck => ?_⟩
      have settled := ledger_process_settles consistent agrees clock uninit fuel block ranked
      beta_reduce at stuck
      rw [stuck, settles_error] at settled
      obtain starved | ⟨aborted, _⟩ := settled
      · exact starved.2 ⟨legacy, (Nat.le_max_left _ _).trans enough, loads_later env steps fuel block loads
          ((Nat.le_max_right _ _).trans enough)⟩
      · cases aborted
  · intro h present
    obtain ⟨n, stored, contract⟩ := (contract_stored agrees h).mp present
    exact ⟨contract_balance_diverges consistent agrees h n stored contract,
      contract_rollback_diverges consistent agrees clock h n stored contract⟩

theorem sample_load_returns (block : Block) : block.LoadReturns sampleEnv := by
  cases fields : block.hashables with
  | sendBlockV2 previous destination action => exact ⟨action.length, by simp [Block.loads, fields, Env.loads, sampleEnv]⟩
  | _ => exact ⟨0, by simp [Block.loads, fields]⟩

theorem ledger_work_terminates_sample : ∃ s, Replay sampleEnv sampleLog s ∧
    ∀ block, Terminates fun fuel => ledgerProcess sampleEnv fuel (fun _ => 0) ⟨.progress, 0, 0, 0⟩ s block := by
  obtain ⟨s, replay⟩ := sample_replayed
  obtain ⟨L, built, plain⟩ := replay_builds sampleLog s (by decide) replay
  have legacy := builds_legacy built (by decide)
  have terminates := (ledger_work_terminates sampleEnv sample_apart s (replay_reachable replay) (fun _ => 0) ⟨.progress, 0, 0, 0⟩).1 ?_
  · exact ⟨s, replay, fun block => terminates.2 block (sample_load_returns block)⟩
  intro h
  by_contra present
  obtain ⟨n, stored, contract⟩ := (contract_stored plain.agrees h).mp present
  exact legacy h n stored contract

def sampleContract : Block := ⟨.sendBlockV2 (genesisHash sampleEnv) (sampleKey 1) [], 0, 0⟩

def sampleContractChange : Block := ⟨.changeBlock (sampleContract.hash sampleEnv) (sampleKey 4), 0, 0⟩

-- Genesis followed by one contract block.
theorem contract_never_terminates : ∃ s, Replay sampleEnv [sampleContract] s ∧ blockExists s (sampleContract.hash sampleEnv) = true ∧
    sampleContract.hash sampleEnv ≠ genesisHash sampleEnv ∧
    (¬ Terminates fun fuel => ledgerBalance sampleEnv fuel s (sampleContract.hash sampleEnv)) ∧
    (¬ Terminates fun fuel => ledgerRollback sampleEnv (fun _ => 0) fuel s (sampleContract.hash sampleEnv)) ∧
    ¬ Terminates fun fuel => ledgerProcess sampleEnv fuel (fun _ => 0) ⟨.progress, 0, 0, 0⟩ s sampleContractChange := by
  obtain ⟨t, run, whole⟩ := replay_all_replays sampleEnv 5 ([] ++ [sampleContract]) (by decide +kernel)
  have unknown : (replayAll sampleEnv 5 ([] ++ [sampleContract])).map (fun s => blockExists s (sampleContractChange.hash sampleEnv)) =
      some false := by decide +kernel
  obtain ⟨fuel, clock, uninit, s, out, replay, returned, progress, rfl⟩ := replay_last sampleEnv _ _ t whole
  obtain ⟨K, base, before⟩ := reachable_agrees (replay_reachable replay)
  obtain ⟨n, accepted⟩ := processed_progress clock out base before returned progress
  have consistent := consistent_attach base accepted.attach
  have agrees := accepted.agrees
  have latest := latest_attached base accepted.attach
  have contract : n.block.kind = .sendBlockV2 := by
    rw [accepted.carries]
    rfl
  have fresh : (K.put (sampleContract.hash sampleEnv) n).get (sampleContractChange.hash sampleEnv) = none := by
    by_contra present
    rw [run, Option.map_some, (exists_iff agrees.blocks _).mpr present] at unknown
    cases unknown
  have unsigned : sampleContractChange.signature = 0 := rfl
  have signed := sample_signed n.account (sampleContractChange.hash sampleEnv) (stored_account consistent _ n latest.1)
  rw [← unsigned] at signed
  refine ⟨out.1, whole, exists_stored agrees.blocks latest.1, by decide +kernel, ?_, ?_, ?_⟩
  · exact diverges_not_terminates _ (contract_balance_diverges consistent agrees _ n latest.1 contract)
  · exact diverges_not_terminates _ (contract_rollback_diverges consistent agrees _ _ n latest.1 contract)
  · exact diverges_not_terminates _ (contract_change_diverges consistent agrees _ _ sampleContractChange
      (sampleContract.hash sampleEnv) (sampleKey 4) n rfl fresh latest contract signed)

end Rai
