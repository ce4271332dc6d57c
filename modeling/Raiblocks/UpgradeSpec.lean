import Raiblocks.Supply
import Raiblocks.Upgrades
import Raiblocks.Weights

set_option autoImplicit false

namespace Rai

open Kit

section Walks

variable {env : Env} {L : Lattice} {next : Hash → Hash} {s : Store} [HashesApart env] (consistent : Consistent env L)
  (legacy : Legacy L) (holds : BlocksHold L next s.blocks)
include consistent legacy holds

theorem first_block_settles (fuel : Nat) (x : Hash) (n : Note) (stored : L.get x = some n) :
    Settles (firstBlock env s fuel x) (Starved (n.height ≤ fuel)) (· = n.openBlock) := by
  induction fuel generalizing x n with
  | zero =>
      have positive := height_pos consistent stored
      exact ⟨rfl, by omega⟩
  | succ fuel ih =>
      rw [firstBlock, get_legacy holds x n stored (legacy x n stored), bind_ok, require_some, bind_ok]
      split
      · next first =>
          rw [settles_ok, consistent.hashed x n stored]
          exact (stored_open consistent stored first).1.symm
      · next later =>
          obtain ⟨before, present, follows⟩ := stored_before consistent stored later
          rw [follows.openBlock, follows.height]
          exact settles_enough (ih _ before present) Nat.le_of_succ_le_succ

omit legacy in
theorem count_blocks_settles (fuel : Nat) (x : Hash) (n : Note) (count : Nat) (stored : L.get x = some n) :
    Settles (countBlocks s fuel x count) (Starved (n.height + 1 ≤ fuel)) (· = count + n.height) := by
  induction fuel generalizing x n count with
  | zero => exact ⟨rfl, by omega⟩
  | succ fuel ih =>
      obtain ⟨found, read, same⟩ := get_reads_as holds x n stored
      rw [countBlocks, if_neg (stored_ne_zero consistent x n stored), read, bind_ok, require_some, bind_ok,
        reads_as_previous n.block same]
      by_cases first : n.block.previous = 0
      · have bottom := (stored_open consistent stored first).2.2.1
        rw [first, bottom]
        cases fuel with
        | zero => exact ⟨rfl, by omega⟩
        | succ fuel => rw [countBlocks, if_pos rfl, settles_ok]
      · obtain ⟨before, present, follows⟩ := stored_before consistent stored first
        rw [follows.height]
        refine settles_mono (settles_enough (ih _ before (count + 1) present) Nat.le_of_succ_le_succ)
          (fun _ => id) fun total counted => ?_
        omega

end Walks

def Stale (L : Lattice) (next : Hash → Hash) : Prop := ∀ y m, L.get y = some m → next y = L.succ y ∨ next y = 0

def Mends (L : Lattice) (next next' : Hash → Hash) : Prop := ∀ y m, L.get y = some m → next' y = L.succ y ∨ next' y = next y

section Mending

variable {L : Lattice} {next next' next'' : Hash → Hash}

theorem mends_right (mends : Mends L next next') (y : Hash) (m : Note) (found : L.get y = some m) (right : next y = L.succ y) :
    next' y = L.succ y := by
  obtain same | same := mends y m found
  · exact same
  · exact same.trans right

theorem mends_stale (mends : Mends L next next') (stale : Stale L next) : Stale L next' := by
  intro y m found
  obtain same | same := mends y m found
  · exact Or.inl same
  · rw [same]
    exact stale y m found

theorem mends_trans (mends : Mends L next next') (mends' : Mends L next' next'') : Mends L next next'' := by
  intro y m found
  obtain same | same := mends' y m found
  · exact Or.inl same
  · rw [same]
    exact mends y m found

end Mending

section Successors

variable {env : Env} {L : Lattice} [HashesApart env] (consistent : Consistent env L) (legacy : Legacy L)
include consistent

theorem block_put_links (next : Hash → Hash) (s : Store) (x : Hash) (n : Note) (holds : BlocksHold L next s.blocks)
    (stored : L.get x = some n) :
    ∃ blocks next', blockPut env s x n.block (L.succ x) = .ok { s with blocks := blocks } ∧ BlocksHold L next' blocks ∧
      next' x = L.succ x ∧ Mends L next next' := by
  have follows : L.succ x = 0 ∨ L.get (L.succ x) ≠ none := by
    by_cases last : L.succ x = 0
    · exact Or.inl last
    · obtain ⟨child, found, _⟩ := succ_child L x last
      exact Or.inr (by rw [found]; exact Option.some_ne_none child)
  have later : n.block.kind ≠ .openBlock → L.get n.block.previous ≠ none := by
    intro inner
    have nonzero : n.block.previous ≠ 0 := fun first => inner ((previous_zero_iff consistent stored).mp first)
    obtain ⟨before, present, _⟩ := stored_before consistent stored nonzero
    rw [present]
    exact Option.some_ne_none before
  obtain ⟨blocks, put, written⟩ := block_put_holds env L next s x (L.succ x) n holds
    (fun m found => by rw [stored] at found; cases found; rfl)
    (consistent.hashed x n stored) follows (stored_previous_ne consistent x n stored) later
  rw [Table.put_same L x n stored] at written
  refine ⟨blocks, _, put, written, if_pos rfl, fun y m found => ?_⟩
  dsimp only
  split
  · next here => exact Or.inl (by rw [here])
  · split
    · next before =>
        have nonzero := before.1 ▸ stored_ne_zero consistent y m found
        exact Or.inl (by rw [before.1]; exact (succ_of_child consistent stored rfl nonzero).symm)
    · exact Or.inr rfl

theorem fill_links (next : Hash → Hash) (s : Store) (x : Hash) (n : Note) (holds : BlocksHold L next s.blocks) (stale : Stale L next)
    (stored : L.get x = some n) :
    ∃ blocks next', fillSuccessor env s x n.block (next x) (L.succ x) = .ok { s with blocks := blocks } ∧ BlocksHold L next' blocks ∧
      next' x = L.succ x ∧ Mends L next next' := by
  unfold fillSuccessor
  split
  · exact block_put_links consistent next s x n holds stored
  · next right =>
      refine ⟨s.blocks, next, rfl, holds, ?_, fun y m _ => Or.inr rfl⟩
      obtain same | zero := stale x n stored
      · exact same
      · rw [zero]
        by_contra other
        exact right ⟨zero, Ne.symm other⟩

include legacy in
theorem fill_settles (fuel : Nat) (next : Hash → Hash) (s : Store) (x : Hash) (n : Note) (holds : BlocksHold L next s.blocks)
    (stale : Stale L next) (stored : L.get x = some n) :
    Settles (fillSuccessors env fuel s x (L.succ x)) (Starved (n.height + 1 ≤ fuel)) fun s' => ∃ blocks next',
    s' = { s with blocks := blocks } ∧
      BlocksHold L next' blocks ∧ Mends L next next' ∧
      ∀ y m, L.get y = some m → m.account = n.account → m.height ≤ n.height → next' y = L.succ y := by
  induction fuel generalizing next s x n with
  | zero => exact ⟨rfl, by omega⟩
  | succ fuel ih =>
      obtain ⟨blocks, next', put, holds', here, mends⟩ := fill_links consistent next s x n holds stale stored
      simp only [fillSuccessors, get_legacy holds x n stored (legacy x n stored), bind_ok, consistent.hashed x n stored,
        successor_stored holds x n stored, put]
      by_cases first : n.block.previous = 0
      · rw [first]
        have bottom := (stored_open consistent stored first).2.2.1
        cases fuel with
        | zero => exact ⟨rfl, by omega⟩
        | succ fuel =>
            have written : BlocksHold L next' ({ s with blocks := blocks } : Store).blocks := holds'
            simp only [fillSuccessors, get_absent written 0 (zero_not_stored consistent), bind_ok, settles_ok]
            refine ⟨blocks, next', rfl, holds', mends, fun y m found owner low => ?_⟩
            have positive := height_pos consistent found
            have same := chain_linear consistent 0 y x m n found stored owner (by omega) (by omega)
            rw [same, here]
      · obtain ⟨before, present, follows⟩ := stored_before consistent stored first
        have rest := ih next' { s with blocks := blocks } _ before holds' (mends_stale mends stale) present
        rw [succ_of_child consistent stored rfl first] at rest
        rw [follows.height]
        refine settles_mono (settles_enough rest Nat.le_of_succ_le_succ) (fun _ => id) ?_
        rintro s' ⟨blocks', next'', rfl, holds'', mends', below⟩
        refine ⟨blocks', next'', rfl, holds'', mends_trans mends mends', fun y m found owner low => ?_⟩
        by_cases own : y = x
        · subst own
          exact mends_right mends' y m found here
        · refine below y m found (owner.trans follows.account) ?_
          by_contra higher
          have level : m.height = before.height + 1 := by omega
          exact own (chain_linear consistent before.height y x m n found stored owner level follows.height)

end Successors

structure Climbing (L : Lattice) (account : Account) (count : Nat) (base s : Store) : Prop where
  rest : s = { base with blocksInfo := s.blocksInfo }
  below : ∀ x n, L.get x = some n → n.account = account → n.height < count → s.blocksInfo.get x = L.checkpoint x
  above : ∀ x, (∀ n, L.get x = some n → n.account = account → count ≤ n.height) → s.blocksInfo.get x = base.blocksInfo.get x

section Checkpoints

variable {env : Env} {L : Lattice} {base : Store} {rank : Hash → Nat} {top : Nat} [HashesApart env]
  (consistent : Consistent env L) (legacy : Legacy L) (ranked : Ranked rank top L) (holds : BlocksHold L L.succ base.blocks)
  (truthful : ∀ x info, base.blocksInfo.get x = some info → ∃ n, L.get x = some n ∧ info = ⟨n.account, n.balance⟩)

include consistent holds truthful in
theorem climbing_reads (account : Account) (count : Nat) (s : Store) (climbing : Climbing L account count base s) : Reads env L s := by
  have blocks : BlocksHold L L.succ s.blocks := by
    rw [climbing.rest]
    exact holds
  refine ⟨get_reads_as blocks, get_absent blocks _ (account_not_stored consistent _ (Or.inl rfl)), fun x info found => ?_⟩
  by_cases passed : ∃ n, L.get x = some n ∧ n.account = account ∧ n.height < count
  · obtain ⟨n, stored, owner, low⟩ := passed
    rw [climbing.below x n stored owner low, checkpoint_some_iff] at found
    obtain ⟨m, present, _, same⟩ := found
    exact ⟨m, present, same⟩
  · rw [climbing.above x fun n stored owner => not_lt.mp fun low => passed ⟨n, stored, owner, low⟩] at found
    exact truthful x info found

include consistent in
theorem climbing_step (account : Account) (s : Store) (x : Hash) (n : Note) (stored : L.get x = some n) (owner : n.account = account)
    (blank : base.blocksInfo.get x = none) (climbing : Climbing L account n.height base s) :
    Climbing L account (n.height + 1) base
      (if n.height % blockInfoMax = 0 then blockInfoPut s x ⟨account, n.balance⟩ else s) := by
  have here : (if n.height % blockInfoMax = 0 then blockInfoPut s x ⟨account, n.balance⟩ else s).blocksInfo.get x = L.checkpoint x := by
    rw [Lattice.checkpoint, stored]
    dsimp only
    split
    · rw [blockInfoPut, Table.get_put_self, owner]
    · rw [climbing.above x fun m found _ => by rw [stored] at found; cases found; exact le_refl _, blank]
  have other : ∀ y, y ≠ x → (if n.height % blockInfoMax = 0 then blockInfoPut s x ⟨account, n.balance⟩ else s).blocksInfo.get y =
      s.blocksInfo.get y := by
    intro y different
    split
    · exact Table.get_put_ne _ _ _ _ different
    · rfl
  refine ⟨?_, fun y m found mate low => ?_, fun y high => ?_⟩
  · have rest := climbing.rest
    split
    · rw [blockInfoPut, rest]
    · exact rest
  · by_cases same : y = x
    · rw [same, here]
    · rw [other y same]
      refine climbing.below y m found mate (lt_of_le_of_ne (Nat.le_of_lt_succ low) fun level => same ?_)
      have positive := height_pos consistent stored
      exact chain_linear consistent (n.height - 1) y x m n found stored (mate.trans owner.symm) (by omega) (by omega)
  · have different : y ≠ x := by
      rintro rfl
      have low := high n stored owner
      omega
    rw [other y different]
    exact climbing.above y fun m found mate => Nat.le_of_succ_le (high m found mate)

include consistent legacy ranked holds truthful

theorem add_checkpoints_settles (depth fuel : Nat) (account : Account) (s : Store) (x : Hash) (n : Note) (stored : L.get x = some n)
    (owner : n.account = account) (blank : ∀ y m, L.get y = some m → m.account = account → base.blocksInfo.get y = none)
    (climbing : Climbing L account n.height base s) :
    Settles (addCheckpoints env depth account fuel s x n.height) (Starved (4 * top ≤ depth ∧ top + 2 ≤ fuel + n.height)) fun s' =>
      s' = { base with blocksInfo := s'.blocksInfo } ∧
      (∀ y m, L.get y = some m → m.account = account → s'.blocksInfo.get y = L.checkpoint y) ∧
      ∀ y, (∀ m, L.get y = some m → m.account ≠ account) → s'.blocksInfo.get y = base.blocksInfo.get y := by
  induction fuel generalizing s x n with
  | zero =>
      have bounded := height_le_top consistent ranked x n stored
      exact ⟨rfl, by omega⟩
  | succ fuel ih =>
      have reads := climbing_reads consistent holds truthful account n.height s climbing
      have further := climbing_step consistent account s x n stored owner (blank x n stored owner) climbing
      have marks : Settles (addCheckpoint env depth account s x n.height) (Starved (4 * top ≤ depth ∧ top + 2 ≤ fuel + 1 + n.height))
          (· = if n.height % blockInfoMax = 0 then blockInfoPut s x ⟨account, n.balance⟩ else s) := by
        unfold addCheckpoint
        split
        · exact settles_value (settles_enough (ledger_balance_settles consistent ranked reads depth stored)
            fun enough => ⟨legacy, enough.1⟩) rfl
        · exact rfl
      rw [addCheckpoints, if_neg (stored_ne_zero consistent x n stored)]
      refine settles_value marks ?_
      generalize (if n.height % blockInfoMax = 0 then blockInfoPut s x ⟨account, n.balance⟩ else s) = t at further ⊢
      have blocks : BlocksHold L L.succ t.blocks := by
        rw [further.rest]
        exact holds
      rw [successor_stored blocks x n stored, bind_ok]
      by_cases last : L.succ x = 0
      · rw [last]
        have bounded := height_le_top consistent ranked x n stored
        cases fuel with
        | zero => exact ⟨rfl, by omega⟩
        | succ fuel =>
            rw [addCheckpoints, if_pos rfl, settles_ok]
            refine ⟨further.rest, fun y m found mate => ?_, fun y other => further.above y fun m found mate =>
              absurd mate (other m found)⟩
            have lower := (latest_above consistent stored last found (mate.trans owner.symm)).1
            exact further.below y m found mate (by omega)
      · obtain ⟨child, found, above⟩ := succ_child L x last
        have nonzero := stored_ne_zero consistent x n stored
        obtain ⟨before, present, follows⟩ := stored_before consistent found (by rw [above]; exact nonzero)
        rw [above, stored] at present
        cases present
        have rest := ih t _ child found (follows.account.trans owner) (by rw [follows.height]; exact further)
        rw [follows.height] at rest
        exact settles_enough rest fun enough => ⟨enough.1, by omega⟩

end Checkpoints

end Rai
