import Raiblocks.Tally

set_option autoImplicit false

namespace Rai

open Kit

section Winner

variable (s : Store) (votes : Votes) (bounded : (votes.repVotes.sum fun account _ => (ledgerWeight s account).toNat) < 2 ^ 128)

include bounded

theorem head_counts (orders : Orders s votes) (weight : Amount) (winner : Block)
    (first : (ledgerTally s votes orders).head? = some (weight, winner)) :
    weight.toNat = blockTally s votes winner ∧ ∀ block, blockTally s votes block ≤ blockTally s votes winner := by
  have listed := tally_old orders.totals _ (List.mem_of_mem_head? first)
  have counted := totals_exact s votes orders.voted orders.votedLists bounded winner weight
  obtain ⟨recorded, value⟩ := counted.mp ((orders.totalsLists.entries _ _).mp listed)
  obtain ⟨weight, winner, found, _, _, largest⟩ := winner_counts s votes orders ⟨winner, recorded⟩ bounded
  cases first.symm.trans found
  exact ⟨value, fun block => value ▸ largest block⟩

-- The block that is met last takes the place of one with the same total.
theorem any_largest_wins (block : Block) (positive : 0 < blockTally s votes block)
    (largest : ∀ other, blockTally s votes other ≤ blockTally s votes block) :
    ∃ orders weight, (ledgerTally s votes orders).head? = some (weight, block) ∧ weight.toNat = blockTally s votes block := by
  obtain ⟨voted, votedLists⟩ := Table.exists_lists votes.repVotes
  have counted := totals_exact s votes voted votedLists bounded
  have recorded : Recorded votes block := by
    by_contra unrecorded
    rw [tally_unrecorded s votes block unrecorded] at positive
    exact Nat.lt_irrefl 0 positive
  obtain ⟨total, found⟩ := recorded_total s votes voted votedLists block recorded
  have value := ((counted block total).mp found).2
  obtain ⟨order, lists⟩ := Table.exists_lists_last (tallyTotals s voted) block total found
  have last : (total, block) ∈ tallyResult (order ++ [(block, total)]) := by
    rw [tallyResult, List.foldl_append]
    exact set_total_new total block _
  refine ⟨⟨voted, _, votedLists, lists⟩, total, ?_, value⟩
  refine tally_first _ _ last fun other member => ?_
  rw [BitVec.le_def, value, ((counted other.1 other.2).mp ((lists.entries _ _).mp member)).2]
  exact largest other.1

end Winner

-- `confirm_once` can overturn a block only where another one has at least its total, and it does so
-- on a tie, depending on the order of the hash map.
theorem overturned_by_more (env : Env) (apart : HashesApart env) (s : Store) (reached : Reachable env s) (inactiveSupply : Amount)
    (election : Election) :
    (∀ orders next actions, confirmOnce env inactiveSupply s election orders = .ok (next, actions) →
    next.lastWinner ≠ election.lastWinner →
      blockTally s election.votes election.lastWinner < blockTally s election.votes next.lastWinner ∧
      (minimumThreshold env inactiveSupply s).toNat < blockTally s election.votes next.lastWinner) ↔
    (election.confirmed = true ∨ ∀ block, block ≠ election.lastWinner →
      blockTally s election.votes block = blockTally s election.votes election.lastWinner →
      (minimumThreshold env inactiveSupply s).toNat < blockTally s election.votes block →
      ∃ other, blockTally s election.votes block < blockTally s election.votes other) := by
  obtain ⟨L, consistent, agrees⟩ := reachable_agrees reached
  have bounded := weights_within consistent agrees election.votes.repVotes
  cases once : election.confirmed with
  | true =>
      refine iff_of_true (fun orders next actions returned changed => ?_) (Or.inl rfl)
      obtain ⟨_, undecided, _⟩ := confirm_once_changed env inactiveSupply s election orders next actions returned changed
      exact absurd (undecided.symm.trans once) Bool.false_ne_true
  | false =>
      simp only [Bool.false_eq_true, false_or]
      constructor
      case mp =>
        intro more block different tie enough
        by_contra most
        have largest : ∀ other, blockTally s election.votes other ≤ blockTally s election.votes block :=
          fun other => Nat.le_of_not_lt fun less => most ⟨other, less⟩
        obtain ⟨orders, weight, first, value⟩ := any_largest_wins s election.votes bounded block (Nat.zero_lt_of_lt enough) largest
        have above : weight > minimumThreshold env inactiveSupply s := by
          rw [gt_iff_lt, BitVec.lt_def, value]
          exact enough
        have overturned := confirm_once_overturns env inactiveSupply s election orders weight block once first different above
        exact Nat.lt_irrefl _ (tie ▸ (more orders _ _ overturned different).1)
      case mpr =>
        intro untied orders next actions returned changed
        obtain ⟨weight, _, first, above, _⟩ := confirm_once_changed env inactiveSupply s election orders next actions returned changed
        obtain ⟨value, largest⟩ := head_counts s election.votes bounded orders weight next.lastWinner first
        have enough : (minimumThreshold env inactiveSupply s).toNat < blockTally s election.votes next.lastWinner := by
          rw [← value]
          exact above
        refine ⟨Nat.lt_of_le_of_ne (largest _) fun tie => ?_, enough⟩
        obtain ⟨other, less⟩ := untied next.lastWinner changed tie.symm enough
        exact Nat.not_le_of_lt less (largest other)

theorem overturned_by_more_sample : ∃ s, Replay sampleEnv [sampleSend, sampleOpen] s ∧ ∀ orders next actions,
    confirmOnce sampleEnv 0 s ⟨votesAfter (sampleKey 9) sampleSend (splitCalls sampleSend workedSend), sampleSend, false⟩ orders =
      .ok (next, actions) → next.lastWinner ≠ sampleSend →
    blockTally s (votesAfter (sampleKey 9) sampleSend (splitCalls sampleSend workedSend)) sampleSend <
      blockTally s (votesAfter (sampleKey 9) sampleSend (splitCalls sampleSend workedSend)) next.lastWinner := by
  obtain ⟨s, replay, genesis, large, nobody⟩ := sample_weights
  have more := overturned_by_more sampleEnv sample_apart s (replay_reachable replay) 0
    ⟨votesAfter (sampleKey 9) sampleSend (splitCalls sampleSend workedSend), sampleSend, false⟩
  refine ⟨s, replay, fun orders next actions returned changed => (more.mpr (Or.inr ?_) orders next actions returned changed).1⟩
  intro block different tie enough
  refine ⟨workedSend, ?_⟩
  rw [tie, split_tally s _ _ _ nobody, split_tally s _ _ _ nobody, genesis, large, if_pos rfl, if_pos rfl, if_neg worked_differs,
    if_neg worked_differs.symm]
  decide

def evenSend : Block := ⟨.sendBlock (genesisHash sampleEnv) (sampleKey 1) (BitVec.ofNat 128 (2 ^ 127)), 0, 0⟩

def evenOpen : Block := ⟨.openBlock (evenSend.hash sampleEnv) (sampleKey 3) (sampleKey 1), 0, 0⟩

def spareSend : Block := ⟨.sendBlock (evenSend.hash sampleEnv) (sampleKey 2) (BitVec.ofNat 128 (2 ^ 127 - 1)), 0, 0⟩

def rivalSpare : Block := ⟨.sendBlock (evenSend.hash sampleEnv) (sampleKey 4) (BitVec.ofNat 128 (2 ^ 127 - 1)), 0, 0⟩

theorem tie_overturns : ∃ s, Replay sampleEnv [evenSend, evenOpen, spareSend] s ∧ blockExists s (spareSend.hash sampleEnv) = true ∧
    ∃ orders next actions,
    confirmOnce sampleEnv 0 s ⟨votesAfter (sampleKey 9) spareSend (splitCalls spareSend rivalSpare), spareSend, false⟩
      orders = .ok (next, actions) ∧ next.lastWinner = rivalSpare ∧ rivalSpare ≠ spareSend ∧
    blockTally s (votesAfter (sampleKey 9) spareSend (splitCalls spareSend rivalSpare)) spareSend =
      blockTally s (votesAfter (sampleKey 9) spareSend (splitCalls spareSend rivalSpare)) rivalSpare := by
  obtain ⟨s, _, replay, present, genesis, other, nobody, enough⟩ :=
    replay_checked sampleEnv 20 [evenSend, evenOpen, spareSend] (fun s =>
    blockExists s (spareSend.hash sampleEnv) = true ∧ ledgerWeight s (genesisAccount sampleEnv.network) =
      BitVec.ofNat 128 (2 ^ 127 - 1) ∧
    ledgerWeight s (sampleKey 3) = BitVec.ofNat 128 (2 ^ 127 - 1) ∧ ledgerWeight s (sampleKey 9) = 0 ∧
    minimumThreshold sampleEnv 0 s < BitVec.ofNat 128 (2 ^ 127 - 1)) (by decide +kernel)
  obtain ⟨L, consistent, agrees⟩ := reachable_agrees (replay_reachable replay)
  have different : rivalSpare ≠ spareSend := by decide +kernel
  have tally := fun block => split_tally s spareSend rivalSpare block nobody
  rw [genesis, other] at tally
  have rival := tally rivalSpare
  rw [if_pos rfl, if_neg different.symm] at rival
  have held := tally spareSend
  rw [if_pos rfl, if_neg different] at held
  have largest : ∀ block, blockTally s (votesAfter (sampleKey 9) spareSend (splitCalls spareSend rivalSpare)) block ≤
      blockTally s (votesAfter (sampleKey 9) spareSend (splitCalls spareSend rivalSpare)) rivalSpare := by
    intro block
    rw [rival, tally]
    by_cases first : rivalSpare = block
    · rw [if_pos first, if_neg (first ▸ different.symm)]
    · rw [if_neg first]
      split <;> decide
  obtain ⟨orders, weight, first, value⟩ := any_largest_wins s _ (weights_within consistent agrees _) rivalSpare
    (by rw [rival]; decide) largest
  have above : weight > minimumThreshold sampleEnv 0 s := by
    rw [gt_iff_lt, BitVec.lt_def, value, rival]
    exact enough
  have overturned := confirm_once_overturns sampleEnv 0 s
    ⟨votesAfter (sampleKey 9) spareSend (splitCalls spareSend rivalSpare), spareSend, false⟩ orders weight rivalSpare rfl first
    different above
  exact ⟨s, replay, present, orders, _, _, overturned, rfl, different, held.trans (by rw [rival, Nat.add_comm])⟩

section Quorum

variable (env : Env) (s : Store)

-- What the genesis account itself delegates to a representative. `ledger::supply` leaves it out.
def unallocatedTo (rep : Account) : Nat :=
  ((s.accounts.get (genesisAccount env.network)).map fun info =>
    if representativeAt s info.repBlock = some rep then info.balance.toNat else 0).getD 0

def allocatedTally (votes : Votes) (block : Block) : Nat :=
  votes.repVotes.sum fun account voted => if voted = block then (ledgerWeight s account).toNat - unallocatedTo env s account else 0

theorem tally_allocated (votes : Votes) (block : Block)
    (elsewhere : ∀ info rep, s.accounts.get (genesisAccount env.network) = some info →
    info.balance ≠ 0 → representativeAt s info.repBlock = some rep → votes.repVotes.get rep ≠ some block) :
    blockTally s votes block ≤ allocatedTally env s votes block := by
  refine Table.sum_le_sum _ _ _ fun account voted recorded => ?_
  split
  · next same =>
      have nothing : unallocatedTo env s account = 0 := by
        unfold unallocatedTo
        cases found : s.accounts.get (genesisAccount env.network) with
        | none => rfl
        | some info =>
            rw [Option.map_some, Option.getD_some]
            split
            · next named =>
                by_contra positive
                have holds : info.balance ≠ 0 := fun zero => positive (by rw [zero]; rfl)
                exact elsewhere info account found holds named (same ▸ recorded)
            · rfl
      rw [nothing, Nat.sub_zero]
  · exact Nat.zero_le _

variable {env s} {L : Lattice} [HashesApart env] (consistent : Consistent env L) (agrees : Agrees L s)

include consistent agrees

theorem weight_allocated (rep : Account) : (ledgerWeight s rep).toNat - unallocatedTo env s rep =
    (s.accounts.del (genesisAccount env.network)).sum fun _ info =>
      if representativeAt s info.repBlock = some rep then info.balance.toNat else 0 := by
  rw [ledgerWeight, weight_delegated env L s consistent agrees, ← Table.sum_del _ s.accounts (genesisAccount env.network)]
  exact Nat.add_sub_cancel _ _

theorem supply_parts : (pendingSum s 0).toNat = (s.pending.sum fun key info => if key.account = 0 then info.amount.toNat else 0) ∧
    (s.accounts.del (genesisAccount env.network)).sum (fun _ info => info.balance.toNat) +
      (ledgerAccountBalance s (genesisAccount env.network)).toNat + (pendingSum s 0).toNat ≤ 2 ^ 128 - 1 := by
  have total := supply_total env L s consistent agrees
  have held : (s.accounts.del (genesisAccount env.network)).sum (fun _ info => info.balance.toNat) +
      (ledgerAccountBalance s (genesisAccount env.network)).toNat = s.circulating := by
    rw [Store.circulating, ← Table.sum_del _ s.accounts (genesisAccount env.network), ledgerAccountBalance]
    cases s.accounts.get (genesisAccount env.network) <;> rfl
  have burned : (s.pending.sum fun key info => if key.account = 0 then info.amount.toNat else 0) ≤ s.uncollected := by
    refine Table.sum_le_sum _ _ _ fun key info _ => ?_
    split
    · exact Nat.le_refl _
    · exact Nat.zero_le _
  have issued : genesisAmount.toNat = 2 ^ 128 - 1 := rfl
  have exact : (pendingSum s 0).toNat = s.pending.sum fun key info => if key.account = 0 then info.amount.toNat else 0 := by
    rw [pending_sum_value]
    exact Nat.mod_eq_of_lt (by omega)
  exact ⟨exact, by omega⟩

theorem supply_exact (inactive : Amount) : (ledgerSupply env inactive s).toNat =
    2 ^ 128 - 1 - (ledgerAccountBalance s (genesisAccount env.network)).toNat - (pendingSum s 0).toNat - inactive.toNat := by
  have parts := (supply_parts consistent agrees).2
  have issued : genesisAmount.toNat = 2 ^ 128 - 1 := rfl
  have absolute : (genesisAmount - ledgerAccountBalance s (genesisAccount env.network) - pendingSum s 0).toNat =
      2 ^ 128 - 1 - (ledgerAccountBalance s (genesisAccount env.network)).toNat - (pendingSum s 0).toNat := by
    have first : ledgerAccountBalance s (genesisAccount env.network) ≤ genesisAmount := by
      rw [BitVec.le_def, issued]
      omega
    have second : pendingSum s 0 ≤ genesisAmount - ledgerAccountBalance s (genesisAccount env.network) := by
      rw [BitVec.le_def, BitVec.toNat_sub_of_le first, issued]
      omega
    rw [BitVec.toNat_sub_of_le second, BitVec.toNat_sub_of_le first, issued]
  unfold ledgerSupply
  dsimp only
  rw [← absolute]
  generalize genesisAmount - ledgerAccountBalance s (genesisAccount env.network) - pendingSum s 0 = supply
  by_cases within : inactive ≤ supply
  · have less : supply - inactive ≤ supply := by
      rw [BitVec.le_def, BitVec.toNat_sub_of_le within]
      omega
    rw [if_pos less, BitVec.toNat_sub_of_le within]
  · -- The difference wraps, and so lies above the supply it was taken from.
    have short : supply.toNat < inactive.toNat := by
      rw [BitVec.le_def] at within
      omega
    have above : ¬ supply - inactive ≤ supply := by
      rw [BitVec.le_def, BitVec.toNat_sub]
      have := inactive.isLt
      omega
    rw [if_neg above]
    simp
    omega

theorem allocated_within (votes : Votes) (a b : Block) (different : a ≠ b) :
    allocatedTally env s votes a + allocatedTally env s votes b ≤ (ledgerSupply env 0 s).toNat := by
  have others : (s.accounts.del (genesisAccount env.network)).sum (fun _ info => info.balance.toNat) ≤
    (ledgerSupply env 0 s).toNat := by
    have parts := (supply_parts consistent agrees).2
    have zero : (0 : Amount).toNat = 0 := rfl
    rw [supply_exact consistent agrees 0]
    omega
  refine Nat.le_trans ?_ others
  refine Nat.le_trans ?_ (delegations_within s (s.accounts.del (genesisAccount env.network)) votes.repVotes)
  rw [allocatedTally, allocatedTally, Table.sum_add]
  refine Table.sum_le_sum _ _ _ fun account voted _ => ?_
  rw [← weight_allocated consistent agrees]
  by_cases first : voted = a
  · rw [if_pos first, if_neg (first ▸ different), Nat.add_zero]
  · rw [if_neg first, Nat.zero_add]
    split
    · exact Nat.le_refl _
    · exact Nat.zero_le _

end Quorum

-- Counted without what the genesis account delegates, at most one block is above the quorum. Two
-- blocks are above it only if that delegation is behind one of them.
theorem quorum_unique_but_genesis (env : Env) (apart : HashesApart env) (s : Store) (reached : Reachable env s)
    (votes : Votes) (a b : Block) (different : a ≠ b) :
    ((quorumThreshold env 0 s).toNat < allocatedTally env s votes a → allocatedTally env s votes b ≤ (quorumThreshold env 0 s).toNat) ∧
    ∀ voted x y, votes.repVotes.Lists voted → (tallyTotals s voted).get a = some x → (tallyTotals s voted).get b = some y →
      x > quorumThreshold env 0 s → y > quorumThreshold env 0 s →
      ∃ info rep, s.accounts.get (genesisAccount env.network) = some info ∧ info.balance ≠ 0 ∧
        representativeAt s info.repBlock = some rep ∧ (votes.repVotes.get rep = some a ∨ votes.repVotes.get rep = some b) := by
  obtain ⟨L, consistent, agrees⟩ := reachable_agrees reached
  have within := allocated_within consistent agrees votes a b different
  have half : (quorumThreshold env 0 s).toNat = (ledgerSupply env 0 s).toNat / 2 := BitVec.toNat_udiv
  refine ⟨by omega, fun voted x y lists first second above beyond => ?_⟩
  have counted := totals_exact s votes voted lists (weights_within consistent agrees _)
  by_contra none
  have left := tally_allocated env s votes a fun info rep found positive named recorded =>
    none ⟨info, rep, found, positive, named, Or.inl recorded⟩
  have right := tally_allocated env s votes b fun info rep found positive named recorded =>
    none ⟨info, rep, found, positive, named, Or.inr recorded⟩
  rw [gt_iff_lt, BitVec.lt_def, ((counted a x).mp first).2] at above
  rw [gt_iff_lt, BitVec.lt_def, ((counted b y).mp second).2] at beyond
  omega

theorem quorum_unique_but_genesis_sample : ∃ s, Replay sampleEnv [sampleSend, sampleOpen] s ∧
    (quorumThreshold sampleEnv 0 s).toNat <
      allocatedTally sampleEnv s (votesAfter (sampleKey 9) sampleSend (splitCalls sampleSend workedSend)) workedSend ∧
    allocatedTally sampleEnv s (votesAfter (sampleKey 9) sampleSend (splitCalls sampleSend workedSend)) sampleSend ≤
      (quorumThreshold sampleEnv 0 s).toNat := by
  obtain ⟨s, _, replay, enough⟩ := replay_checked sampleEnv 20 [sampleSend, sampleOpen]
    (fun s => (quorumThreshold sampleEnv 0 s).toNat <
    (ledgerWeight s (sampleKey 3)).toNat - unallocatedTo sampleEnv s (sampleKey 3)) (by decide +kernel)
  have above : (quorumThreshold sampleEnv 0 s).toNat <
      allocatedTally sampleEnv s (votesAfter (sampleKey 9) sampleSend (splitCalls sampleSend workedSend)) workedSend := by
    rw [allocatedTally, ← Table.lists_sum _ _ _ (split_listed _ _), List.map_cons, List.sum_cons, if_pos rfl]
    exact Nat.lt_of_lt_of_le enough (Nat.le_add_right _ _)
  exact ⟨s, replay, above, (quorum_unique_but_genesis sampleEnv sample_apart s (replay_reachable replay) _ workedSend sampleSend
    worked_differs).1 above⟩

-- The genesis account has given away two units. They are the supply, and its own weight is not in it.
def smallSend : Block := ⟨.sendBlock (genesisHash sampleEnv) (sampleKey 1) (genesisAmount - 2), 0, 0⟩

def smallOpen : Block := ⟨.openBlock (smallSend.hash sampleEnv) (sampleKey 3) (sampleKey 1), 0, 0⟩

def rivalSmall : Block := ⟨.sendBlock (genesisHash sampleEnv) (sampleKey 2) (genesisAmount - 2), 0, 0⟩

theorem genesis_splits_quorum : ∃ s, Replay sampleEnv [smallSend, smallOpen] s ∧ ∃ voted x y,
    (votesAfter (sampleKey 9) smallSend (splitCalls smallSend rivalSmall)).repVotes.Lists voted ∧
    (tallyTotals s voted).get smallSend = some x ∧ (tallyTotals s voted).get rivalSmall = some y ∧
    smallSend.hash sampleEnv ≠ rivalSmall.hash sampleEnv ∧ x > quorumThreshold sampleEnv 0 s ∧ y > quorumThreshold sampleEnv 0 s := by
  obtain ⟨s, _, replay, genesis, small, nobody, threshold⟩ := replay_checked sampleEnv 20 [smallSend, smallOpen] (fun s =>
    ledgerWeight s (genesisAccount sampleEnv.network) = genesisAmount - 2 ∧ ledgerWeight s (sampleKey 3) = 2 ∧
    ledgerWeight s (sampleKey 9) = 0 ∧ quorumThreshold sampleEnv 0 s = 1) (by decide +kernel)
  obtain ⟨L, consistent, agrees⟩ := reachable_agrees (replay_reachable replay)
  have listed := split_listed smallSend rivalSmall
  have counted := totals_exact s _ _ listed (weights_within consistent agrees _)
  have apart : smallSend.hash sampleEnv ≠ rivalSmall.hash sampleEnv := by decide +kernel
  have different : smallSend ≠ rivalSmall := fun same => apart (by rw [same])
  refine ⟨s, replay, _, genesisAmount - 2, 2, listed, ?_, ?_, apart, by rw [threshold]; decide, by rw [threshold]; decide⟩
  · refine (counted _ _).mpr ⟨⟨sampleKey 9, (listed.entries _ _).mp (by simp)⟩, ?_⟩
    rw [split_tally s _ _ _ nobody, genesis, small, if_pos rfl, if_neg different.symm, Nat.zero_add]
  · refine (counted _ _).mpr ⟨⟨sampleKey 3, (listed.entries _ _).mp (by simp)⟩, ?_⟩
    rw [split_tally s _ _ _ nobody, genesis, small, if_pos rfl, if_neg different, Nat.add_zero]

end Rai
