import Mathlib.Order.Bounds.Basic
import Raiblocks.Replay
import Raiblocks.Votes
import Raiblocks.Weights

set_option autoImplicit false

namespace Rai

open Kit

def blockTally (s : Store) (votes : Votes) (block : Block) : Nat :=
  votes.repVotes.sum fun account voted => if voted = block then (ledgerWeight s account).toNat else 0

def hashTally (env : Env) (s : Store) (votes : Votes) (hash : Hash) : Nat :=
  votes.repVotes.sum fun account voted => if voted.hash env = hash then (ledgerWeight s account).toNat else 0

def Recorded (votes : Votes) (block : Block) : Prop := ∃ account, votes.repVotes.get account = some block

section Totals

variable (s : Store)

theorem totals_get (voted : List (Account × Block)) (block : Block) : (tallyTotals s voted).get block =
    if ∃ entry ∈ voted, entry.2 = block then
      some (voted.map fun entry => if entry.2 = block then ledgerWeight s entry.1 else 0).sum else none := by
  refine (Table.group_get Prod.snd (fun entry => ledgerWeight s entry.1) voted Table.empty block).trans ?_
  rw [Table.get_empty, Option.getD_none, zero_add]

theorem sum_toNat (values : List Amount) : values.sum.toNat = (values.map BitVec.toNat).sum % 2 ^ 128 := by
  induction values with
  | nil => simp
  | cons value rest ih => rw [List.sum_cons, BitVec.toNat_add, ih, List.map_cons, List.sum_cons, Nat.add_mod_mod]

theorem recorded_total (votes : Votes) (voted : List (Account × Block)) (lists : votes.repVotes.Lists voted) (block : Block)
    (recorded : Recorded votes block) : ∃ total, (tallyTotals s voted).get block = some total := by
  obtain ⟨account, known⟩ := recorded
  have present := totals_get s voted block
  rw [if_pos ⟨(account, block), (lists.entries _ _).mpr known, rfl⟩] at present
  exact ⟨_, present⟩

theorem totals_exact (votes : Votes) (voted : List (Account × Block)) (lists : votes.repVotes.Lists voted)
    (bounded : (votes.repVotes.sum fun account _ => (ledgerWeight s account).toNat) < 2 ^ 128) (block : Block) (total : Amount) :
    (tallyTotals s voted).get block = some total ↔ Recorded votes block ∧ total.toNat = blockTally s votes block := by
  have listed : (∃ entry ∈ voted, entry.2 = block) ↔ Recorded votes block := by
    constructor
    · rintro ⟨⟨account, _⟩, member, rfl⟩
      exact ⟨account, (lists.entries _ _).mp member⟩
    · rintro ⟨account, found⟩
      exact ⟨(account, block), (lists.entries _ _).mpr found, rfl⟩
  have value : (voted.map fun entry => if entry.2 = block then ledgerWeight s entry.1 else 0).sum.toNat = blockTally s votes block := by
    have exact :=
      Table.lists_sum (fun account other => if other = block then (ledgerWeight s account).toNat else 0) votes.repVotes voted lists
    have share : blockTally s votes block ≤ votes.repVotes.sum fun account _ => (ledgerWeight s account).toNat := by
      refine Table.sum_le_sum _ _ _ fun account other _ => ?_
      split
      · exact Nat.le_refl _
      · exact Nat.zero_le _
    have same : ((voted.map fun entry => if entry.2 = block then ledgerWeight s entry.1 else 0).map BitVec.toNat) =
        voted.map fun entry => if entry.2 = block then (ledgerWeight s entry.1).toNat else 0 := by
      rw [List.map_map]
      refine List.map_congr_left fun entry _ => ?_
      rw [Function.comp_apply]
      split
      · rfl
      · exact BitVec.toNat_zero
    rw [sum_toNat, same, exact]
    exact Nat.mod_eq_of_lt (Nat.lt_of_le_of_lt share bounded)
  rw [totals_get, ← listed, ← value]
  split
  · next present =>
      rw [Option.some.injEq, and_iff_right present, BitVec.toNat_inj]
      exact eq_comm
  · next absent => simp only [reduceCtorEq, absent, false_and]

end Totals

section Sorting

def Decreasing (result : List (Amount × Block)) : Prop := result.Pairwise fun a b => a.1 > b.1

variable (total : Amount) (block : Block) (result : List (Amount × Block))

theorem set_total_new : (total, block) ∈ setTotal total block result := by
  induction result with
  | nil => exact List.mem_singleton_self _
  | cons entry rest ih =>
      rw [setTotal]
      split
      · exact List.mem_cons_self
      · split
        · exact List.mem_cons_self
        · exact List.mem_cons_of_mem _ ih

theorem set_total_old (entry : Amount × Block) (member : entry ∈ setTotal total block result) :
    entry = (total, block) ∨ entry ∈ result := by
  induction result with
  | nil => exact Or.inl (List.mem_singleton.mp member)
  | cons first rest ih =>
      rw [setTotal] at member
      split at member
      · exact (List.mem_cons.mp member).imp_right (List.mem_cons_of_mem _)
      · split at member
        · exact List.mem_cons.mp member
        · obtain here | later := List.mem_cons.mp member
          · exact Or.inr (List.mem_cons.mpr (Or.inl here))
          · exact (ih later).imp_right (List.mem_cons_of_mem _)

theorem set_total_keeps (entry : Amount × Block) (member : entry ∈ result) (other : entry.1 ≠ total) :
    entry ∈ setTotal total block result := by
  induction result with
  | nil => cases member
  | cons first rest ih =>
      rw [setTotal]
      split
      · next same =>
          obtain here | later := List.mem_cons.mp member
          · exact absurd (by rw [here, same]) other
          · exact List.mem_cons_of_mem _ later
      · split
        · exact List.mem_cons_of_mem _ member
        · obtain here | later := List.mem_cons.mp member
          · exact List.mem_cons.mpr (Or.inl here)
          · exact List.mem_cons_of_mem _ (ih later)

theorem set_total_decreasing (decreasing : Decreasing result) : Decreasing (setTotal total block result) := by
  induction result with
  | nil => exact List.pairwise_singleton _ _
  | cons first rest ih =>
      obtain ⟨above, below⟩ := List.pairwise_cons.mp decreasing
      rw [setTotal]
      split
      · next same => exact List.pairwise_cons.mpr ⟨fun entry member => same ▸ above entry member, below⟩
      · next different =>
          split
          · next larger =>
              refine List.pairwise_cons.mpr ⟨fun entry member => ?_, decreasing⟩
              obtain rfl | later := List.mem_cons.mp member
              · exact larger
              · exact BitVec.lt_trans (above entry later) larger
          · next smaller =>
              refine List.pairwise_cons.mpr ⟨fun entry member => ?_, ih below⟩
              obtain rfl | later := set_total_old total block rest entry member
              · exact BitVec.lt_of_le_ne (BitVec.not_lt.mp smaller) different
              · exact above entry later

end Sorting

section Tally

variable (totals : List (Block × Amount))

theorem tally_decreasing : Decreasing (tallyResult totals) := by
  induction totals using List.reverseRecOn with
  | nil => exact List.Pairwise.nil
  | append_singleton rest entry ih =>
      rw [tallyResult, List.foldl_append]
      exact set_total_decreasing _ _ _ ih

theorem tally_old (entry : Amount × Block) (member : entry ∈ tallyResult totals) : (entry.2, entry.1) ∈ totals := by
  induction totals using List.reverseRecOn with
  | nil => cases member
  | append_singleton rest last ih =>
      rw [tallyResult, List.foldl_append] at member
      obtain rfl | older := set_total_old _ _ _ entry member
      · exact List.mem_append_right _ (List.mem_singleton_self _)
      · exact List.mem_append_left _ (ih older)

theorem tally_covers (entry : Block × Amount) (member : entry ∈ totals) : ∃ block, (entry.2, block) ∈ tallyResult totals := by
  induction totals using List.reverseRecOn with
  | nil => cases member
  | append_singleton rest last ih =>
      rw [tallyResult, List.foldl_append]
      by_cases same : entry.2 = last.2
      · exact ⟨last.1, same ▸ set_total_new _ _ _⟩
      · obtain older | newer := List.mem_append.mp member
        · obtain ⟨block, kept⟩ := ih older
          exact ⟨block, set_total_keeps _ _ _ _ kept same⟩
        · exact absurd (by rw [List.mem_singleton.mp newer]) same

theorem tally_first (entry : Amount × Block) (member : entry ∈ tallyResult totals) (largest : ∀ other ∈ totals, other.2 ≤ entry.1) :
    (tallyResult totals).head? = some entry := by
  have decreasing := tally_decreasing totals
  cases sorted : tallyResult totals with
  | nil =>
      rw [sorted] at member
      cases member
  | cons first rest =>
      rw [sorted] at member decreasing
      obtain rfl | later := List.mem_cons.mp member
      · rfl
      · have top := largest _ (tally_old totals first (by rw [sorted]; exact List.mem_cons_self))
        exact absurd ((List.pairwise_cons.mp decreasing).1 entry later) (BitVec.not_lt.mpr top)

theorem tally_winner (some_ : totals ≠ []) :
    ∃ entry, (tallyResult totals).head? = some entry ∧ (entry.2, entry.1) ∈ totals ∧ ∀ other ∈ totals, other.2 ≤ entry.1 := by
  have decreasing := tally_decreasing totals
  obtain ⟨counted, member⟩ := List.exists_mem_of_ne_nil totals some_
  cases sorted : tallyResult totals with
  | nil =>
      obtain ⟨block, covered⟩ := tally_covers totals counted member
      rw [sorted] at covered
      cases covered
  | cons first rest =>
      rw [sorted] at decreasing
      refine ⟨first, rfl, tally_old totals first (by rw [sorted]; exact List.mem_cons_self), fun other listed => ?_⟩
      obtain ⟨block, covered⟩ := tally_covers totals other listed
      rw [sorted] at covered
      obtain rfl | later := List.mem_cons.mp covered
      · exact BitVec.le_refl _
      · exact BitVec.le_of_lt ((List.pairwise_cons.mp decreasing).1 _ later)

end Tally

-- Each account delegates to one representative, so what several representatives weigh is in different accounts.
theorem delegations_within {V : Type} (s : Store) (accounts : Table Account AccountInfo) (reps : Table Account V) :
    (reps.sum fun rep _ => accounts.sum fun _ info => if representativeAt s info.repBlock = some rep then info.balance.toNat else 0) ≤
      accounts.sum fun _ info => info.balance.toNat := by
  rw [Table.sum_swap]
  exact Table.sum_le_sum _ _ _ fun _ info _ => Table.sum_pick_le reps (representativeAt s info.repBlock) info.balance.toNat

theorem weights_within {V : Type} {env : Env} {L : Lattice} {s : Store} [HashesApart env] (consistent : Consistent env L)
    (agrees : Agrees L s) (reps : Table Account V) : (reps.sum fun rep _ => (ledgerWeight s rep).toNat) < 2 ^ 128 := by
  have total := supply_total env L s consistent agrees
  have within := delegations_within s s.accounts reps
  simp only [← weight_delegated env L s consistent agrees] at within
  exact Nat.lt_of_le_of_lt within (by rw [Store.circulating] at total; omega)

theorem tally_unrecorded (s : Store) (votes : Votes) (block : Block) (unrecorded : ¬ Recorded votes block) :
    blockTally s votes block = 0 := by
  refine Finset.sum_eq_zero fun account _ => ?_
  cases found : votes.repVotes.get account with
  | none => rfl
  | some other =>
      have different : other ≠ block := fun same => unrecorded ⟨account, same ▸ found⟩
      rw [Option.map_some, Option.getD_some]
      exact if_neg different

theorem winner_counts (s : Store) (votes : Votes) (orders : Orders s votes) (recorded : ∃ block, Recorded votes block)
    (bounded : (votes.repVotes.sum fun account _ => (ledgerWeight s account).toNat) < 2 ^ 128) :
    ∃ weight winner, (ledgerTally s votes orders).head? = some (weight, winner) ∧ Recorded votes winner ∧
      weight.toNat = blockTally s votes winner ∧ ∀ block, blockTally s votes block ≤ weight.toNat := by
  have counted := totals_exact s votes orders.voted orders.votedLists bounded
  have listed : ∀ block, Recorded votes block → ∃ total, (block, total) ∈ orders.totals ∧ total.toNat = blockTally s votes block := by
    intro block member
    obtain ⟨total, present⟩ := recorded_total s votes orders.voted orders.votedLists block member
    exact ⟨total, (orders.totalsLists.entries _ _).mpr present, ((counted _ _).mp present).2⟩
  obtain ⟨block, member⟩ := recorded
  obtain ⟨_, some_, _⟩ := listed block member
  obtain ⟨⟨weight, winner⟩, first, present, largest⟩ := tally_winner orders.totals (List.ne_nil_of_mem some_)
  obtain ⟨known, value⟩ := (counted winner weight).mp ((orders.totalsLists.entries _ _).mp present)
  refine ⟨weight, winner, first, known, value, fun other => ?_⟩
  by_cases voted : Recorded votes other
  · obtain ⟨total, inside, exact⟩ := listed other voted
    rw [← exact]
    exact largest _ inside
  · rw [tally_unrecorded s votes other voted]
    exact Nat.zero_le _

def votesAfter (notAnAccount : Account) (block : Block) (calls : List Vote) : Votes :=
  calls.foldl (fun votes call => (votes.vote call).1) (.start notAnAccount block)

theorem vote_recorded (votes : Votes) (vote : Vote) : (votes.vote vote).1.repVotes.get vote.account = some vote.block := by
  rw [vote_records]
  exact Table.get_put_self _ _ _

theorem votes_recorded (notAnAccount : Account) (block : Block) (calls : List Vote) :
    ∃ recorded, Recorded (votesAfter notAnAccount block calls) recorded := by
  induction calls using List.reverseRecOn with
  | nil => exact ⟨block, notAnAccount, Table.get_put_self _ _ _⟩
  | append_singleton calls call _ =>
      rw [votesAfter, List.foldl_append]
      exact ⟨call.block, call.account, vote_recorded _ call⟩

theorem votes_listed (notAnAccount : Account) (block : Block) (calls : List Vote)
    (once : ((calls.map Vote.account).reverse ++ [notAnAccount]).Nodup) : (votesAfter notAnAccount block calls).repVotes.Lists
      ((calls.map fun call => (call.account, call.block)).reverse ++ [(notAnAccount, block)]) := by
  induction calls using List.reverseRecOn with
  | nil => exact Table.lists_put _ _ _ _ Table.lists_empty (Table.get_empty _)
  | append_singleton calls call ih =>
      simp only [List.map_append, List.map_cons, List.map_nil, List.reverse_append, List.reverse_cons,
        List.reverse_nil, List.nil_append, List.cons_append, List.nodup_cons] at once ⊢
      have lists := ih once.2
      have fresh : (votesAfter notAnAccount block calls).repVotes.get call.account = none := by
        cases found : (votesAfter notAnAccount block calls).repVotes.get call.account with
        | none => rfl
        | some voted =>
            have member := List.mem_map_of_mem (f := Prod.fst) ((lists.entries _ _).mpr found)
            rw [List.map_append, List.map_reverse, List.map_map] at member
            exact absurd member once.1
      rw [votesAfter, List.foldl_append]
      change ((votesAfter notAnAccount block calls).vote call).1.repVotes.Lists _
      rw [vote_records]
      exact Table.lists_put _ _ _ _ lists fresh

theorem exists_orders (s : Store) (votes : Votes) : Nonempty (Orders s votes) := by
  obtain ⟨voted, votedLists⟩ := Table.exists_lists votes.repVotes
  obtain ⟨totals, totalsLists⟩ := Table.exists_lists (tallyTotals s voted)
  exact ⟨⟨voted, totals, votedLists, totalsLists⟩⟩

section Hashes

variable (env : Env) (s : Store) (votes : Votes)

theorem block_tally_le (block : Block) : blockTally s votes block ≤ hashTally env s votes (block.hash env) := by
  refine Table.sum_le_sum _ _ _ fun account other _ => ?_
  split
  · next same => rw [same, if_pos rfl]
  · exact Nat.zero_le _

theorem hash_tally_le (hash : Hash) (block : Block) (only : ∀ other, Recorded votes other → other.hash env = hash → other = block) :
    hashTally env s votes hash ≤ blockTally s votes block := by
  refine Table.sum_le_sum _ _ _ fun account other found => ?_
  split
  · next same => rw [if_pos (only other ⟨account, found⟩ same)]
  · exact Nat.zero_le _

end Hashes

-- The weight of the winner is the largest sum for one block. It is the largest sum for one hash as
-- well if the recorded blocks differ in their hashes, and exactly if one block alone has that sum.
theorem winner_weight_by_block (env : Env) (apart : HashesApart env) (s : Store) (reached : Reachable env s) (notAnAccount : Account)
    (block : Block) (calls : List Vote) (orders : Orders s (votesAfter notAnAccount block calls)) :
    ∃ weight winner, ledgerWinner s (votesAfter notAnAccount block calls) orders = .ok (weight, winner) ∧
      Recorded (votesAfter notAnAccount block calls) winner ∧ weight.toNat = blockTally s (votesAfter notAnAccount block calls) winner ∧
      IsGreatest (Set.range (blockTally s (votesAfter notAnAccount block calls))) weight.toNat ∧
      ((∀ a b, Recorded (votesAfter notAnAccount block calls) a → Recorded (votesAfter notAnAccount block calls) b →
          a.hash env = b.hash env → a = b) →
        IsGreatest (Set.range (hashTally env s (votesAfter notAnAccount block calls))) weight.toNat) ∧
      (IsGreatest (Set.range (hashTally env s (votesAfter notAnAccount block calls))) weight.toNat ↔
        ∃ other, IsGreatest (Set.range (hashTally env s (votesAfter notAnAccount block calls)))
          (blockTally s (votesAfter notAnAccount block calls) other)) := by
  obtain ⟨L, consistent, agrees⟩ := reachable_agrees reached
  have some_ := votes_recorded notAnAccount block calls
  generalize votesAfter notAnAccount block calls = votes at orders some_ ⊢
  obtain ⟨weight, winner, first, recorded, value, largest⟩ := winner_counts s votes orders some_
    (weights_within consistent agrees _)
  refine ⟨weight, winner,
    by rw [ledgerWinner, first, require_some], recorded, value, ⟨⟨winner, value.symm⟩, ?_⟩, fun single => ?_, ?_, ?_⟩
  · rintro _ ⟨other, rfl⟩
    exact largest other
  · -- the hash of a recorded block stands for that block alone
    have alone : ∀ hash, hashTally env s votes hash ≤ weight.toNat := by
      intro hash
      by_cases known : ∃ other, Recorded votes other ∧ other.hash env = hash
      · obtain ⟨other, present, rfl⟩ := known
        exact Nat.le_trans (hash_tally_le env s votes _ other fun a known same => single a other known present same) (largest other)
      · exact Nat.le_trans (hash_tally_le env s votes _ winner fun a present same => absurd ⟨a, present, same⟩ known) (largest winner)
    refine ⟨⟨winner.hash env, Nat.le_antisymm (alone _) (value ▸ block_tally_le env s votes winner)⟩, ?_⟩
    rintro _ ⟨hash, rfl⟩
    exact alone hash
  · intro most
    exact ⟨winner, value ▸ most⟩
  · rintro ⟨other, most⟩
    have same : blockTally s votes other = weight.toNat := by
      apply Nat.le_antisymm (largest other)
      rw [value]
      exact Nat.le_trans (block_tally_le env s votes winner) (most.2 ⟨_, rfl⟩)
    rw [← same]
    exact most

def splitCalls (a b : Block) : List Vote := [⟨genesisAccount sampleEnv.network, 1, a, 0⟩, ⟨sampleKey 3, 1, b, 0⟩]

theorem split_listed (a b : Block) : (votesAfter (sampleKey 9) a (splitCalls a b)).repVotes.Lists
    [(sampleKey 3, b), (genesisAccount sampleEnv.network, a), (sampleKey 9, a)] :=
  votes_listed (sampleKey 9) a (splitCalls a b) (by
    change [sampleKey 3, genesisAccount sampleEnv.network, sampleKey 9].Nodup
    decide +kernel)

theorem split_tally (s : Store) (a b block : Block) (nobody : ledgerWeight s (sampleKey 9) = 0) :
    blockTally s (votesAfter (sampleKey 9) a (splitCalls a b)) block =
      (if b = block then (ledgerWeight s (sampleKey 3)).toNat else 0) +
        if a = block then (ledgerWeight s (genesisAccount sampleEnv.network)).toNat else 0 := by
  rw [blockTally, ← Table.lists_sum _ _ _ (split_listed a b)]
  simp [nobody]

def workedSend : Block := { sampleSend with work := 1 }

theorem worked_differs : workedSend ≠ sampleSend := fun same => absurd (congrArg Block.work same) (by decide)

theorem sample_weights : ∃ s, Replay sampleEnv [sampleSend, sampleOpen] s ∧ ledgerWeight s (genesisAccount sampleEnv.network) = 5 ∧
    ledgerWeight s (sampleKey 3) = genesisAmount - 5 ∧ ledgerWeight s (sampleKey 9) = 0 := by
  obtain ⟨s, _, replay, weights⟩ := replay_checked sampleEnv 20 [sampleSend, sampleOpen] (fun s =>
    ledgerWeight s (genesisAccount sampleEnv.network) = 5 ∧ ledgerWeight s (sampleKey 3) = genesisAmount - 5 ∧
      ledgerWeight s (sampleKey 9) = 0)
    (by decide +kernel)
  exact ⟨s, replay, weights⟩

theorem winner_weight_by_block_sample : ∃ s, Replay sampleEnv [sampleSend, sampleOpen] s ∧ ∃ orders weight winner,
    ledgerWinner s (votesAfter (sampleKey 9) sampleSend (splitCalls sampleSend workedSend)) orders = .ok (weight, winner) ∧
    IsGreatest (Set.range (blockTally s (votesAfter (sampleKey 9) sampleSend (splitCalls sampleSend workedSend)))) weight.toNat := by
  obtain ⟨s, replay, _⟩ := sample_weights
  obtain ⟨orders⟩ := exists_orders s (votesAfter (sampleKey 9) sampleSend (splitCalls sampleSend workedSend))
  obtain ⟨weight, winner, won, _, _, greatest, _⟩ := winner_weight_by_block sampleEnv sample_apart s (replay_reachable replay)
    (sampleKey 9) sampleSend (splitCalls sampleSend workedSend) orders
  exact ⟨s, replay, orders, weight, winner, won, greatest⟩

theorem reworked_votes_apart : ∃ s, Replay sampleEnv [sampleSend, sampleOpen] s ∧ ∀ orders, ∃ weight winner,
    ledgerWinner s (votesAfter (sampleKey 9) sampleSend (splitCalls sampleSend workedSend)) orders = .ok (weight, winner) ∧
    weight.toNat < hashTally sampleEnv s (votesAfter (sampleKey 9) sampleSend (splitCalls sampleSend workedSend))
    (sampleSend.hash sampleEnv) ∧
    ¬ IsGreatest (Set.range (hashTally sampleEnv s (votesAfter (sampleKey 9) sampleSend (splitCalls sampleSend workedSend))))
    weight.toNat := by
  obtain ⟨s, replay, genesis, large, nobody⟩ := sample_weights
  obtain ⟨L, consistent, agrees⟩ := reachable_agrees (replay_reachable replay)
  have whole : hashTally sampleEnv s (votesAfter (sampleKey 9) sampleSend (splitCalls sampleSend workedSend))
    (sampleSend.hash sampleEnv) =
      (genesisAmount - 5).toNat + 5 := by
    rw [hashTally, ← Table.lists_sum _ _ _ (split_listed _ _)]
    simp [workedSend, genesis, large, nobody, Block.hash]
  refine ⟨s, replay, fun orders => ?_⟩
  obtain ⟨weight, winner, first, _, value, _⟩ := winner_counts s _ orders (votes_recorded _ _ _)
    (weights_within consistent agrees _)
  have less : weight.toNat < hashTally sampleEnv s (votesAfter (sampleKey 9) sampleSend (splitCalls sampleSend workedSend))
      (sampleSend.hash sampleEnv) := by
    rw [whole, value, split_tally s _ _ _ nobody, genesis, large]
    by_cases first : sampleSend = winner
    · rw [if_pos first, if_neg (first ▸ worked_differs)]
      decide
    · rw [if_neg first]
      split <;> decide
  exact ⟨weight, winner, by rw [ledgerWinner, first, require_some], less, fun greatest => Nat.not_le_of_lt less (greatest.2 ⟨_, rfl⟩)⟩

end Rai
