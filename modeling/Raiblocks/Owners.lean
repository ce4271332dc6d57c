import Raiblocks.History

set_option autoImplicit false

namespace Rai

open Kit

inductive ChainHeight (s : Store) : Hash → Nat → Prop where
  | first (h : Hash) (block : Block) (read : blockGet s h = .ok (some block)) (opens : block.kind = .openBlock) : ChainHeight s h 1
  | above (h : Hash) (block : Block) (k : Nat) (read : blockGet s h = .ok (some block)) (later : block.kind ≠ .openBlock)
      (below : ChainHeight s block.previous k) : ChainHeight s h (k + 1)

section Reading

variable {env : Env} {L : Lattice} {s : Store} [HashesApart env] (consistent : Consistent env L) (agrees : Agrees L s)
include consistent agrees

theorem chain_height_note (h : Hash) (k : Nat) (height : ChainHeight s h k) : ∃ n, L.get h = some n ∧ n.height = k := by
  induction height with
  | first h block read opens =>
      obtain ⟨n, stored, same⟩ := read_stored agrees read
      rw [reads_as_kind n.block same] at opens
      exact ⟨n, stored, (stored_open consistent stored (open_previous n.block opens)).2.2.1⟩
  | above h block k read later _ ih =>
      obtain ⟨n, stored, same⟩ := read_stored agrees read
      obtain ⟨m, found, level⟩ := ih
      rw [reads_as_kind n.block same] at later
      rw [reads_as_previous n.block same] at found
      have inner : n.block.previous ≠ 0 := fun first => later ((previous_zero_iff consistent stored).mp first)
      obtain ⟨before, present, follows⟩ := stored_before consistent stored inner
      obtain rfl := Option.some.inj (present.symm.trans found)
      exact ⟨n, stored, by rw [follows.height, level]⟩

theorem chain_height_stored (h : Hash) (n : Note) (stored : L.get h = some n) : ChainHeight s h n.height := by
  apply chain_induction consistent (fun h n => ChainHeight s h n.height) _ _ h n stored
  · intro h n stored first
    obtain ⟨block, read, same⟩ := get_reads_as agrees.blocks h n stored
    rw [(stored_open consistent stored first).2.2.1]
    exact ChainHeight.first h block read
      ((reads_as_kind n.block same).trans ((previous_zero_iff consistent stored).mp first))
  · intro h n before stored present follows below
    obtain ⟨block, read, same⟩ := get_reads_as agrees.blocks h n stored
    rw [← reads_as_previous n.block same] at below
    rw [follows.height]
    refine ChainHeight.above h block before.height read ?_ below
    rw [reads_as_kind n.block same]
    intro opens
    rw [open_previous n.block opens, zero_not_stored consistent] at present
    cases present

-- The walk up the successors ends at the first checkpoint or at the frontier, and both name the owner.
theorem account_yields (h : Hash) (n : Note) (stored : L.get h = some n) : Yields (fun fuel => ledgerAccount fuel s h) n.account := by
  obtain ⟨rank, top, ranked⟩ := exists_ranked consistent
  have present := exists_stored agrees.blocks stored
  exact yields_bounded fun fuel => ledger_account_settles consistent ranked (agrees_walks agrees) fuel h n stored present

end Reading

-- The checkpoints are the blocks at every 32nd height, with their owner and the
-- balance there, and the owner of every stored block is found.
theorem owner_lookup_right (env : Env) (apart : HashesApart env) (past : List Store) (s : Store)
    (history : History env (fun _ => True) past s) :
    (∀ h info, s.blocksInfo.get h = some info ↔ ∃ k, ChainHeight s h k ∧ 0 < k ∧ k % 32 = 0 ∧ OnChain s info.account h ∧
      HeldAt past s h info.account info.balance) ∧
    ∀ h, blockExists s h = true → ∃ account, OnChain s account h ∧ (∀ other, OnChain s other h → other = account) ∧
      Yields (fun fuel => ledgerAccount fuel s h) account := by
  obtain ⟨L, remembers⟩ := history_remembers past s history
  have consistent := remembers.consistent
  have agrees := remembers.agrees
  constructor
  · intro h info
    rw [agrees.checkpoints h, checkpoint_some_iff]
    constructor
    · rintro ⟨n, stored, due, rfl⟩
      exact ⟨n.height, chain_height_stored consistent agrees h n stored, height_pos consistent stored, due,
        (on_chain_iff consistent agrees h n stored n.account).mpr rfl, remembers_held past s L remembers h n stored⟩
    · rintro ⟨k, height, _, due, owned, held⟩
      obtain ⟨n, stored, rfl⟩ := chain_height_note consistent agrees h k height
      refine ⟨n, stored, due, ?_⟩
      -- At some time `h` was a head, and there both accounts of its past must agree.
      have owner := (on_chain_iff consistent agrees h n stored info.account).mp owned
      obtain ⟨t, member, known, found, head⟩ := held.once
      have balance := (held.always t member _ known found head).2
      have balance' := ((remembers_held past s L remembers h n stored).always t member _ known found head).2
      rw [← owner, ← balance', balance]
  · intro h present
    obtain ⟨n, stored⟩ := Option.ne_none_iff_exists'.mp ((exists_iff agrees.blocks h).mp present)
    exact ⟨n.account, (on_chain_iff consistent agrees h n stored _).mpr rfl,
      fun other => (on_chain_iff consistent agrees h n stored other).mp, account_yields consistent agrees h n stored⟩

theorem owner_lookup_right_sample : ∃ past s, History sampleEnv (fun _ => True) past s ∧
    blockExists s (sampleChange.hash sampleEnv) = true ∧
    ∃ account, OnChain s account (sampleChange.hash sampleEnv) ∧
      Yields (fun fuel => ledgerAccount fuel s (sampleChange.hash sampleEnv)) account := by
  obtain ⟨s, replay⟩ := sample_replayed
  obtain ⟨past, history⟩ := replay_history (fun _ => True) (fun _ _ => trivial) replay
  have stored := replay_stored sampleLog s (by decide) replay sampleChange (by simp [sampleLog])
  obtain ⟨account, owned, _, found⟩ := (owner_lookup_right sampleEnv sample_apart past s history).2 _ stored
  exact ⟨past, s, history, stored, account, owned, found⟩

end Rai
