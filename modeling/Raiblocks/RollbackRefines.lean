import Raiblocks.UndoRefines

set_option autoImplicit false

namespace Rai

open Kit

theorem depends_below (L M : Lattice) (below : Below L M) (x y : Hash) (depends : Depends L x y) : Depends M x y :=
  Relation.ReflTransGen.mono (needs_below L M below) x y depends

theorem depends_rank (rank : Hash → Nat) (top : Nat) (M : Lattice) (ranked : Ranked rank top M) (x y : Hash)
    (depends : Depends M x y) : rank y ≤ rank x := by
  induction depends with
  | refl => exact Nat.le_refl _
  | tail _ needs ih => exact Nat.le_trans (Nat.le_of_lt (ranked.drops _ _ needs)) ih

theorem legacy_below (L M : Lattice) (below : Below L M) (legacy : Legacy M) : Legacy L :=
  fun h n stored => legacy h n (below h n stored)

theorem size_below (L M : Lattice) (h : Hash) (n : Note) (below : Below L M) (stored : M.get h = some n) (removed : L.get h = none) :
    L.size < M.size := by
  apply Finset.card_lt_card
  refine Finset.ssubset_iff_of_subset ?_ |>.mpr ⟨h, (Table.mem_keys M h).mpr (by simp [stored]), ?_⟩
  · intro x member
    obtain ⟨m, found⟩ := Option.ne_none_iff_exists'.mp ((Table.mem_keys L x).mp member)
    exact (Table.mem_keys M x).mpr (by simp [below x m found])
  · exact fun member => (Table.mem_keys L h).mp member removed

-- The visitor takes the block off: it is no contract block, and the balances it asks for can be computed.
structure Undoable (env : Env) (s : Store) (block : Block) : Prop where
  plain : block.kind ≠ .sendBlockV2
  computes : ∃ fuel, Computes env fuel s block

theorem computes_more {env : Env} {s : Store} {block : Block} {fuel more : Nat} (enough : fuel ≤ more)
    (computes : Computes env fuel s block) : Computes env more s block := by
  induction enough with
  | refl => exact computes
  | @step more _ ih =>
      have grows := visits_grow env s more
      refine ⟨fun later => ?_, fun collects => ?_⟩
      · obtain ⟨balance, returned⟩ := ih.before later
        exact ⟨balance, grows.balance _ 0 balance returned⟩
      · obtain ⟨amount, returned⟩ := ih.collected collects
        exact ⟨amount, grows.compute _ amount returned⟩

theorem collected_stored {env : Env} {L : Lattice} [HashesApart env] (consistent : Consistent env L) (x : Hash) (n : Note)
    (stored : L.get x = some n) (collects : n.block.kind = .receiveBlock ∨ n.block.kind = .openBlock) :
    n.block.source = genesisAccount env.network ∨ ∃ sent, L.get n.block.source = some sent := by
  cases fields : n.block.hashables with
  | receiveBlock previous source =>
      obtain ⟨_, sent, _, sentTo, _⟩ := stored_receive consistent stored fields
      exact Or.inr ⟨sent, by simpa [Block.source, fields] using sentTo.1⟩
  | openBlock source representative account =>
      obtain ⟨claimed, _⟩ | ⟨_, sent, sentTo, _⟩ := stored_open_source consistent stored fields
      · exact Or.inl (by simpa [Block.source, fields] using claimed)
      · exact Or.inr ⟨sent, by simpa [Block.source, fields] using sentTo.1⟩
  | sendBlock previous destination balance => simp [Block.kind, fields] at collects
  | sendBlockV2 previous destination action => simp [Block.kind, fields] at collects
  | changeBlock previous representative => simp [Block.kind, fields] at collects

section Part

-- `L` is a part of `M` that a store of its own agrees with.
variable {env : Env} {L M : Lattice} {s s' : Store} [HashesApart env] (lower : Consistent env L) (upper : Consistent env M)
  (agrees : Agrees M s) (agrees' : Agrees L s') (below : Below L M)

include agrees agrees' below in
theorem checkpoints_below (x : Hash) (n : Note) (stored : L.get x = some n) : s'.blocksInfo.get x = s.blocksInfo.get x := by
  rw [agrees'.checkpoints, agrees.checkpoints, Lattice.checkpoint, Lattice.checkpoint, stored, below x n stored]

include lower upper agrees agrees' below

theorem balance_below (fuel : Nat) (x : Hash) (n : Note) (stored : L.get x = some n) :
    ledgerBalance env fuel s' x = ledgerBalance env fuel s x :=
  ledger_balance_alike lower (agrees_reads lower agrees') (agrees_reads upper agrees) below
    (checkpoints_below agrees agrees' below) fuel x n stored

theorem collected_below (fuel : Nat) (x : Hash) (n : Note) (stored : L.get x = some n)
    (collects : n.block.kind = .receiveBlock ∨ n.block.kind = .openBlock) :
    ledgerAmount env fuel s' n.block.source = ledgerAmount env fuel s n.block.source := by
  have left := agrees_reads lower agrees'
  have right := agrees_reads upper agrees
  obtain issued | ⟨sent, present⟩ := collected_stored lower x n stored collects
  · rw [issued]
    exact genesis_alike left right fuel
  · exact ledger_amount_alike lower left right below (checkpoints_below agrees agrees' below) fuel _ sent present

theorem computes_below (fuel : Nat) (x : Hash) (n : Note) (stored : L.get x = some n) :
    Computes env fuel s' n.block ↔ Computes env fuel s n.block := by
  have before : n.block.kind ≠ .openBlock → ledgerBalance env fuel s' n.block.previous = ledgerBalance env fuel s n.block.previous := by
    intro later
    obtain ⟨m, present, _⟩ := entry_before (stored_entry lower x n stored later) later
    exact balance_below lower upper agrees agrees' below fuel _ m present
  have collected := collected_below lower upper agrees agrees' below fuel x n stored
  constructor
  · exact fun computes => ⟨fun later => before later ▸ computes.before later, fun collects =>
      collected collects ▸ computes.collected collects⟩
  · exact fun computes =>
      ⟨fun later => (before later).symm ▸ computes.before later, fun collects =>
        (collected collects).symm ▸ computes.collected collects⟩

theorem undoable_below (x : Hash) (n : Note) (stored : L.get x = some n) (undoable : Undoable env s' n.block) :
    Undoable env s n.block := by
  obtain ⟨plain, fuel, computes⟩ := undoable
  exact ⟨plain, fuel, (computes_below lower upper agrees agrees' below fuel x n stored).mp computes⟩

end Part

def Loses (env : Env) (s : Store) (M L : Lattice) (h : Hash) : Prop :=
  ∀ x n, M.get x = some n → L.get x = none → Depends M x h ∧ Undoable env s n.block

theorem loses_nothing (env : Env) (s : Store) (M : Lattice) (h : Hash) : Loses env s M M h := by
  intro x n stored gone
  cases stored.symm.trans gone

structure Cut (env : Env) (M : Lattice) (h : Hash) (s : Store) (L : Lattice) (s' : Store) : Prop where
  consistent : Consistent env L
  becomes : Becomes L s s'
  below : Below L M
  removed : L.get h = none
  only : Loses env s M L h

structure Stands (env : Env) (rank : Hash → Nat) (top : Nat) (M : Lattice) (s : Store) : Prop where
  consistent : Consistent env M
  agrees : Agrees M s
  ranked : Ranked rank top M

theorem loses_trans (env : Env) (rank : Hash → Nat) (top : Nat) (M K L : Lattice) (t h : Hash) (s s' : Store) [HashesApart env]
    (stands : Stands env rank top M s) (first : Cut env M t s K s') (second : Loses env s' K L h) (depends : Depends M t h) :
    Loses env s M L h := by
  intro x n stored gone
  cases found : K.get x with
  | none => exact ⟨(first.only x n stored found).1.trans depends, (first.only x n stored found).2⟩
  | some m =>
      obtain ⟨path, undoable⟩ := second x m found gone
      cases stored.symm.trans (first.below x m found)
      exact ⟨depends_below K M first.below x h path,
        undoable_below first.consistent stands.consistent stands.agrees first.becomes.agrees first.below x n found undoable⟩

theorem becomes_trans {K L : Lattice} {s s' s'' : Store} (first : Becomes K s s') (second : Becomes L s' s'') : Becomes L s s'' :=
  ⟨second.agrees, second.unchecked.trans first.unchecked, second.cache.trans first.cache, second.codes.trans first.codes⟩

theorem cut_stands {env : Env} (rank : Hash → Nat) {top : Nat} {M L : Lattice} {h : Hash} {s s' : Store}
    (stands : Stands env rank top M s) (cut : Cut env M h s L s') : Stands env rank top L s' :=
  ⟨cut.consistent, cut.becomes.agrees, ranked_below rank top L M stands.ranked cut.below⟩

theorem cut_weaken (env : Env) (M L : Lattice) (t h : Hash) (s s' : Store) (cut : Cut env M t s L s') (depends : Depends M t h)
    (removed : L.get h = none) : Cut env M h s L s' :=
  ⟨cut.consistent, cut.becomes, cut.below, removed, fun x n stored gone =>
    ⟨(cut.only x n stored gone).1.trans depends, (cut.only x n stored gone).2⟩⟩

theorem cut_trans (env : Env) (rank : Hash → Nat) (top : Nat) (M K L : Lattice) (t h : Hash) (s s' s'' : Store) [HashesApart env]
    (stands : Stands env rank top M s) (first : Cut env M t s K s') (second : Cut env K h s' L s'') (depends : Depends M t h) :
    Cut env M h s L s'' :=
  ⟨second.consistent, becomes_trans first.becomes second.becomes, below_trans L K M second.below first.below,
    second.removed, loses_trans env rank top M K L t h s s' stands first second.only depends⟩

def Frees (env : Env) (fuel : Nat) (s : Store) (M : Lattice) (h : Hash) : Prop :=
  ∀ x n, M.get x = some n → Depends M x h → n.block.kind ≠ .sendBlockV2 ∧ Computes env fuel s n.block

theorem frees_depends (env : Env) (fuel : Nat) (s : Store) (M : Lattice) (t h : Hash) (frees : Frees env fuel s M h)
    (depends : Depends M t h) :
    Frees env fuel s M t :=
  fun x n stored path => frees x n stored (path.trans depends)

theorem frees_cut (env : Env) (rank : Hash → Nat) (top fuel : Nat) (M K : Lattice) (t h : Hash) (s s' : Store) [HashesApart env]
    (stands : Stands env rank top M s) (cut : Cut env M t s K s') (frees : Frees env fuel s M h) : Frees env fuel s' K h := by
  intro x n stored path
  obtain ⟨plain, computes⟩ := frees x n (cut.below x n stored) (depends_below K M cut.below x h path)
  exact ⟨plain,
    (computes_below cut.consistent stands.consistent stands.agrees cut.becomes.agrees cut.below fuel x n stored).mpr computes⟩

theorem frees_legacy (env : Env) (rank : Hash → Nat) (top : Nat) (M : Lattice) (h : Hash) (s : Store) [HashesApart env]
    (stands : Stands env rank top M s) (legacy : Legacy M) : Frees env (4 * top) s M h := by
  intro x n stored _
  have consistent := stands.consistent
  have reads := agrees_reads consistent stands.agrees
  refine ⟨legacy x n stored, fun later => ?_, fun collects => ?_⟩
  · obtain ⟨before, present, _⟩ := entry_before (stored_entry consistent x n stored later) later
    have settled := ledger_balance_settles consistent stands.ranked reads (4 * top) present
    obtain ⟨balance, returned, _⟩ := settles_returns settled ⟨legacy, Nat.le_refl _⟩
    exact ⟨balance, returned⟩
  · obtain issued | ⟨sent, present⟩ := collected_stored consistent x n stored collects
    · have within := stands.ranked.within x n stored
      obtain ⟨amount, returned, _⟩ := settles_returns (amount_compute_genesis reads (4 * top)) (by omega)
      exact ⟨amount, issued ▸ returned⟩
    · have settled := ledger_amount_settles consistent stands.ranked reads (4 * top) _ sent present
      obtain ⟨amount, returned, _⟩ := settles_returns settled ⟨legacy, Nat.le_refl _⟩
      exact ⟨amount, returned⟩

theorem frees_undoable (env : Env) (s : Store) (M : Lattice) (h : Hash)
    (undoable : ∀ x n, M.get x = some n → Depends M x h → Undoable env s n.block) : ∃ fuel, Frees env fuel s M h := by
  have each : ∀ x, ∃ fuel, ∀ n, M.get x = some n → Depends M x h → Computes env fuel s n.block := by
    intro x
    by_cases goes : ∃ n, M.get x = some n ∧ Depends M x h
    · obtain ⟨n, stored, path⟩ := goes
      obtain ⟨fuel, computes⟩ := (undoable x n stored path).computes
      refine ⟨fuel, fun m found _ => ?_⟩
      cases stored.symm.trans found
      exact computes
    · exact ⟨0, fun n stored path => absurd ⟨n, stored, path⟩ goes⟩
  choose fuel computes using each
  refine ⟨M.keys.sup fuel, fun x n stored path => ⟨(undoable x n stored path).plain, ?_⟩⟩
  have member : x ∈ M.keys := (Table.mem_keys M x).mpr (by simp [stored])
  exact computes_more (Finset.le_sup member) (computes x n stored path)

-- How many more rounds a rollback can need: blocks go, and until one goes the rank climbs.
def budget (rank : Hash → Nat) (top : Nat) (M : Lattice) (h : Hash) : Nat :=
  4 * top + 1 + 4 * (M.size * (top + 1) + (top - rank h))

theorem budget_smaller (rank : Hash → Nat) (top : Nat) (L M : Lattice) (h x : Hash) (smaller : L.size < M.size) :
    budget rank top L x + 4 ≤ budget rank top M h := by
  have block : (L.size + 1) * (top + 1) ≤ M.size * (top + 1) := Nat.mul_le_mul_right _ smaller
  rw [Nat.add_mul] at block
  simp only [budget]
  omega

theorem budget_higher (rank : Hash → Nat) (top : Nat) (M : Lattice) (h x : Hash) (higher : rank h < rank x) (within : rank x < top) :
    budget rank top M x + 4 ≤ budget rank top M h := by
  simp only [budget]
  omega

theorem budget_mono (rank : Hash → Nat) (top : Nat) (M : Lattice) (h x : Hash) (higher : rank h ≤ rank x) :
    budget rank top M x ≤ budget rank top M h := by
  simp only [budget]
  omega

section Heads

variable {env : Env} {M : Lattice} [HashesApart env] (consistent : Consistent env M)
include consistent

theorem latest_not_genesis (h t : Hash) (n top : Note) (stored : M.get h = some n) (later : h ≠ genesisHash env)
    (latest : M.Latest t top) (owner : n.account = top.account) : t ≠ genesisHash env := by
  rintro rfl
  have below := (latest_above consistent latest.1 latest.2 stored owner).1
  have positive := height_pos consistent stored
  obtain ⟨stamp, rfl⟩ := stored_genesis consistent top latest.1
  have level : (genesisNote env stamp).height = 1 := rfl
  exact later (chain_linear consistent 0 h _ n _ stored latest.1 owner (by omega) level)

theorem received_by (t : Hash) (n : Note) (stored : M.get t = some n) (received : M.Received t) :
    ∃ r m, M.get r = some m ∧ m.block.source = t ∧ r ≠ genesisHash env ∧ n.block.recipient = some m.account := by
  obtain ⟨r, m, found, spent⟩ := received
  obtain ⟨later, sent, sentTo, _⟩ := stored_source consistent r t m found spent (Or.inl (by simp [stored]))
  cases stored.symm.trans sentTo.1
  exact ⟨r, m, found, spent, later, sentTo.2⟩

theorem latest_unnamed (t : Hash) (n : Note) (latest : M.Latest t n) (unspent : ¬ M.Received t) (x : Hash) (m : Note)
    (stored : M.get x = some m) : m.block.previous ≠ t ∧ m.block.source ≠ t :=
  ⟨(succ_zero_iff consistent t (stored_ne_zero consistent t n latest.1)).mp latest.2 x m stored,
    fun spent => unspent ⟨x, m, stored, spent⟩⟩

end Heads

theorem latest_below (env : Env) (L M : Lattice) (t : Hash) (n : Note) [HashesApart env] (lower : Consistent env L)
    (upper : Consistent env M) (below : Below L M) (latest : M.Latest t n) (kept : L.get t = some n) : L.Latest t n := by
  have nonzero := stored_ne_zero lower t n kept
  refine ⟨kept, (succ_zero_iff lower t nonzero).mpr ?_⟩
  intro c m stored
  exact (succ_zero_iff upper t nonzero).mp latest.2 c m (below c m stored)

structure Waited (env : Env) (M : Lattice) (t : Hash) (n : Note) (s : Store) (L : Lattice) (out : Store × PendingInfo) : Prop where
  consistent : Consistent env L
  becomes : Becomes L s out.1
  below : Below L M
  kept : L.get t = some n
  unspent : ¬ L.Received t
  only : Loses env s M L t
  pending : out.2 = ⟨n.account, n.amount⟩

structure RollbackSpec (env : Env) (clock : Hash → Nat) (rank : Hash → Nat) (top fuel : Nat) : Prop where
  rollback : ∀ M s h n, Stands env rank top M s → M.get h = some n → h ≠ genesisHash env →
    Settles (ledgerRollback env clock fuel s h) (Starved (Frees env (4 * top) s M h ∧ budget rank top M h + 3 ≤ fuel))
      fun s' => ∃ L, Cut env M h s L s'
  loop : ∀ M s h n, Stands env rank top M s → M.get h = some n → h ≠ genesisHash env →
    Settles (rollbackLoop env clock fuel s n.account h) (Starved (Frees env (4 * top) s M h ∧ budget rank top M h + 2 ≤ fuel))
      fun s' => ∃ L, Cut env M h s L s'
  visit : ∀ M s t n found, Stands env rank top M s → M.Latest t n → t ≠ genesisHash env → n.block.ReadsAs found →
    Settles (rollbackVisit env clock fuel s found) (Starved (Frees env (4 * top) s M t ∧ budget rank top M t + 1 ≤ fuel))
      fun s' => n.block.kind = .sendBlockV2 ∧ s' = s ∨ ∃ L, Cut env M t s L s'
  wait : ∀ M s t n destination, Stands env rank top M s → M.Latest t n → n.block.recipient = some destination →
    Settles (rollbackWait env clock fuel s ⟨destination, t⟩) (Starved (Frees env (4 * top) s M t ∧ budget rank top M t ≤ fuel))
      fun out => ∃ L, Waited env M t n s L out

section Steps

variable {env : Env} {clock : Hash → Nat} {rank : Hash → Nat} {top fuel : Nat} [HashesApart env]
  (spec : RollbackSpec env clock rank top fuel)
include spec

theorem rollback_step (M : Lattice) (s : Store) (h : Hash) (n : Note) (stands : Stands env rank top M s) (stored : M.get h = some n)
    (later : h ≠ genesisHash env) : Settles (ledgerRollback env clock (fuel + 1) s h)
      (Starved (Frees env (4 * top) s M h ∧ budget rank top M h + 3 ≤ fuel + 1)) fun s' => ∃ L, Cut env M h s L s' := by
  have present := exists_stored stands.agrees.blocks stored
  rw [ledgerRollback, ensure_true _ present, bind_ok]
  have owner := ledger_account_settles stands.consistent stands.ranked (agrees_walks stands.agrees) fuel h n stored present
  refine settles_value (settles_enough owner fun enough => ?_) ?_
  · have covers := enough.2
    have within := stands.ranked.within h n stored
    simp only [budget] at covers
    omega
  · exact settles_enough (spec.loop M s h n stands stored later) fun enough => ⟨enough.1, by omega⟩

theorem loop_step (M : Lattice) (s : Store) (h : Hash) (n : Note) (stands : Stands env rank top M s) (stored : M.get h = some n)
    (later : h ≠ genesisHash env) : Settles (rollbackLoop env clock (fuel + 1) s n.account h)
      (Starved (Frees env (4 * top) s M h ∧ budget rank top M h + 2 ≤ fuel + 1)) fun s' => ∃ L, Cut env M h s L s' := by
  have consistent := stands.consistent
  obtain ⟨t, head, found, owner, last, _⟩ := exists_latest consistent h n stored
  have latest : M.Latest t head := ⟨found, last⟩
  have reaches := (latest_above consistent found last stored owner.symm).2
  have climbs := depends_rank rank top M stands.ranked t h reaches
  obtain ⟨time, known⟩ := account_latest consistent stands.agrees t head latest
  obtain ⟨block, read, same⟩ := get_reads_as stands.agrees.blocks t head found
  rw [owner] at known
  rw [rollbackLoop, if_pos (exists_stored stands.agrees.blocks stored), known, require_some, bind_ok]
  simp only [Note.info_head]
  rw [read, bind_ok, require_some, bind_ok]
  have visited := spec.visit M s t head block stands latest
    (latest_not_genesis consistent h t n head stored later latest owner.symm) same
  refine settles_bind (settles_enough visited fun enough => ⟨frees_depends env _ s M t h enough.1 reaches, ?_⟩) ?_
  · have covers := budget_mono rank top M h t climbs
    omega
  · rintro s' (⟨contract, rfl⟩ | ⟨K, cut⟩)
    · -- A contract block at the end of the chain: nothing changed, and the loop starts over.
      exact settles_enough (spec.loop M s' h n stands stored later) fun enough =>
        absurd contract (enough.1 t head found reaches).1
    · have smaller := size_below K M t head cut.below found cut.removed
      cases left : K.get h with
      | none =>
          cases fuel with
          | zero => exact ⟨rfl, by simp only [budget]; omega⟩
          | succ fuel =>
              rw [rollbackLoop, if_neg (by simp [exists_absent cut.becomes.agrees.blocks h left]), settles_ok]
              exact ⟨K, cut_weaken env M K t h s s' cut reaches left⟩
      | some m =>
          have same : m = n := by
            have above := cut.below h m left
            rw [stored] at above
            exact (Option.some.inj above).symm
          subst same
          have rest := spec.loop K s' h m (cut_stands rank stands cut) left later
          refine settles_mono (settles_enough rest fun enough =>
            ⟨frees_cut env rank top _ M K t h s s' stands cut enough.1, ?_⟩) (fun _ => id) ?_
          · have shrinks := budget_smaller rank top K M h h smaller
            omega
          · rintro s'' ⟨L, further⟩
            exact ⟨L, cut_trans env rank top M K L t h s s' s'' stands cut further reaches⟩

theorem wait_step (M : Lattice) (s : Store) (t : Hash) (n : Note) (destination : Account) (stands : Stands env rank top M s)
    (latest : M.Latest t n) (sends : n.block.recipient = some destination) :
    Settles (rollbackWait env clock (fuel + 1) s ⟨destination, t⟩)
    (Starved (Frees env (4 * top) s M t ∧ budget rank top M t ≤ fuel + 1))
      fun out => ∃ L, Waited env M t n s L out := by
  have consistent := stands.consistent
  have agrees := stands.agrees
  rw [rollbackWait]
  cases waiting : s.pending.get ⟨destination, t⟩ with
  | some pending =>
      obtain ⟨sent, sentTo, unspent, same⟩ := (pending_some_iff ⟨destination, t⟩ pending).mp ((agrees.pending _).symm.trans waiting)
      cases latest.1.symm.trans sentTo.1
      rw [settles_ok]
      exact ⟨M, consistent, ⟨agrees, rfl, rfl, rfl⟩, below_refl M, latest.1, unspent, loses_nothing env s M t, same⟩
  | none =>
      -- Somebody has received it: the end of the receiving chain depends on the send and goes first.
      have received : M.Received t := by
        by_contra unspent
        have entry := (pending_some_iff ⟨destination, t⟩ _).mpr ⟨n, ⟨latest.1, sends⟩, unspent, rfl⟩
        rw [← agrees.pending, waiting] at entry
        cases entry
      obtain ⟨r, m, found, spent, later, addressed⟩ := received_by consistent t n latest.1 received
      cases sends.symm.trans addressed
      obtain ⟨x, head, present, owner, last, _⟩ := exists_latest consistent r m found
      have above := (latest_above consistent present last found owner.symm).2
      have needs : Needs M r t := ⟨m, found, Or.inr spent.symm, by simp [latest.1]⟩
      have reaches : Depends M x t := above.tail needs
      have higher : rank t < rank x :=
        Nat.lt_of_lt_of_le (stands.ranked.drops r t needs) (depends_rank rank top M stands.ranked x r above)
      obtain ⟨time, known⟩ := account_latest consistent agrees x head ⟨present, last⟩
      have head_eq : ledgerLatest s m.account = x := by
        rw [← owner, ledgerLatest, known]
        rfl
      dsimp only
      rw [head_eq]
      have rolled := spec.rollback M s x head stands present
        (latest_not_genesis consistent r x m head found later ⟨present, last⟩ owner.symm)
      refine settles_bind (settles_enough rolled fun enough => ⟨frees_depends env _ s M x t enough.1 reaches, ?_⟩) ?_
      · have covers := budget_higher rank top M t x higher (stands.ranked.within x head present)
        omega
      · rintro s' ⟨K, cut⟩
        have stays : K.get t ≠ none := fun gone => by
          have lower := depends_rank rank top M stands.ranked t x (cut.only t n latest.1 gone).1
          omega
        have kept := kept_below K M t n cut.below latest.1 stays
        have stillLatest := latest_below env K M t n cut.consistent consistent cut.below latest kept
        have rest := spec.wait K s' t n m.account (cut_stands rank stands cut) stillLatest sends
        refine settles_mono (settles_enough rest fun enough =>
          ⟨frees_cut env rank top _ M K x t s s' stands cut enough.1, ?_⟩) (fun _ => id) ?_
        · have shrinks := budget_smaller rank top K M t t (size_below K M x head cut.below present cut.removed)
          omega
        · rintro out ⟨L, waited⟩
          exact ⟨L, waited.consistent, becomes_trans cut.becomes waited.becomes,
            below_trans L K M waited.below cut.below, waited.kept, waited.unspent,
            loses_trans env rank top M K L x t s s' stands cut waited.only reaches, waited.pending⟩

omit [HashesApart env] spec in
theorem becomes_cut (M K : Lattice) (s s' s'' : Store) (t : Hash) (n : Note) (consistent : Consistent env (K.del t)) (below : Below K M)
    (only : Loses env s M K t) (stored : M.get t = some n) (undoable : Undoable env s n.block) (first : Becomes K s s')
    (second : Becomes (K.del t) s' s'') : Cut env M t s (K.del t) s'' := by
  refine ⟨consistent, becomes_trans first second, below_trans _ K M (below_del K t) below, Table.get_del_self K t, ?_⟩
  intro x m present gone
  by_cases here : x = t
  · subst here
    cases stored.symm.trans present
    exact ⟨Relation.ReflTransGen.refl, undoable⟩
  · rw [Table.get_del_ne K t x here] at gone
    exact only x m present gone

-- The body of the visitor on a lattice `K` in which `t` is an end that nobody received.
omit spec in
theorem undo_cuts {M K : Lattice} {s s' : Store} {t : Hash} {n : Note} {body : Except Fault Store} (stands : Stands env rank top M s)
    (latest : M.Latest t n) (later : t ≠ genesisHash env) (consistent : Consistent env K) (becomes : Becomes K s s') (below : Below K M)
    (kept : K.get t = some n) (unspent : ¬ K.Received t) (only : Loses env s M K t) (plain : n.block.kind ≠ .sendBlockV2)
    (settles : Consistent env (K.del t) → Attach env (K.del t) t n → Agrees ((K.del t).put t n) s' →
    Ranked rank top ((K.del t).put t n) →
      Settles body (Starved (Computes env fuel s' n.block ∧ 4 * top ≤ fuel))
        fun s'' => Becomes (K.del t) s' s'' ∧ Computes env fuel s' n.block) :
    Settles body (Starved (Frees env (4 * top) s M t ∧ budget rank top M t + 1 ≤ fuel + 1))
      fun s'' => n.block.kind = .sendBlockV2 ∧ s'' = s ∨ ∃ L, Cut env M t s L s'' := by
  have ends := latest_below env K M t n consistent stands.consistent below latest kept
  have unnamed := latest_unnamed consistent t n ends unspent
  have rest := consistent_del consistent later unnamed
  have alike := computes_below consistent stands.consistent stands.agrees becomes.agrees below fuel t n kept
  rw [Table.put_del_self K t n kept] at settles
  refine settles_mono (settles_enough (settles rest (attach_del consistent kept later unnamed) becomes.agrees
    (ranked_below rank top K M stands.ranked below)) fun enough => ?_) (fun _ => id) ?_
  · obtain ⟨frees, covers⟩ := enough
    have room : 4 * top ≤ fuel := by
      simp only [budget] at covers
      omega
    exact ⟨alike.mpr (computes_more room (frees t n latest.1 Relation.ReflTransGen.refl).2), room⟩
  · rintro s'' ⟨second, computes⟩
    exact Or.inr ⟨_, becomes_cut M K s s' s'' t n rest below only latest.1 ⟨plain, fuel, alike.mp computes⟩ becomes second⟩

theorem visit_step (M : Lattice) (s : Store) (t : Hash) (n : Note) (found : Block) (stands : Stands env rank top M s)
    (latest : M.Latest t n) (later : t ≠ genesisHash env) (same : n.block.ReadsAs found) :
    Settles (rollbackVisit env clock (fuel + 1) s found) (Starved (Frees env (4 * top) s M t ∧ budget rank top M t + 1 ≤ fuel + 1))
      fun s' => n.block.kind = .sendBlockV2 ∧ s' = s ∨ ∃ L, Cut env M t s L s' := by
  have here : Becomes M s s := ⟨stands.agrees, rfl, rfl, rfl⟩
  have unsent : n.block.recipient = none → ¬ M.Received t := by
    intro keeps received
    obtain ⟨_, _, _, _, _, addressed⟩ := received_by stands.consistent t n latest.1 received
    rw [keeps] at addressed
    cases addressed
  rw [rollbackVisit]
  cases fields : n.block.hashables with
  | sendBlock previous destination balance =>
      have plain : n.block.kind ≠ .sendBlockV2 := by simp [Block.kind, fields]
      rw [reads_as_exact _ _ same plain, fields, stands.consistent.hashed t n latest.1]
      have waited := spec.wait M s t n destination stands latest (by simp [Block.recipient, fields])
      refine settles_bind (settles_enough waited fun enough => ⟨enough.1, by omega⟩) ?_
      rintro ⟨s', pending⟩ ⟨K, ended⟩
      cases ended.pending
      refine undo_cuts stands latest later ended.consistent ended.becomes ended.below ended.kept ended.unspent ended.only plain ?_
      exact fun rest attach agrees ranked => undo_send_settles rest attach agrees ranked clock fuel _ _ _ fields
  | sendBlockV2 previous destination action =>
      have contract : n.block.kind = .sendBlockV2 := by simp [Block.kind, fields]
      have nothing : ∃ p d a, found.hashables = .sendBlockV2 p d a := by
        obtain rfl | ⟨p, d, _, kept, _, cut⟩ := same
        · exact ⟨_, _, _, fields⟩
        · exact ⟨p, d, kept, cut⟩
      obtain ⟨p, d, a, fields'⟩ := nothing
      rw [fields', settles_ok]
      exact Or.inl ⟨contract, rfl⟩
  | receiveBlock previous source =>
      have plain : n.block.kind ≠ .sendBlockV2 := by simp [Block.kind, fields]
      rw [reads_as_exact _ _ same plain, fields]
      refine undo_cuts stands latest later stands.consistent here (below_refl M) latest.1 (unsent (by simp [Block.recipient, fields]))
        (loses_nothing env s M t) plain ?_
      exact fun rest attach agrees ranked => undo_receive_settles rest attach agrees ranked clock fuel _ _ fields
  | openBlock source representative account =>
      have plain : n.block.kind ≠ .sendBlockV2 := by simp [Block.kind, fields]
      rw [reads_as_exact _ _ same plain, fields]
      refine undo_cuts stands latest later stands.consistent here (below_refl M) latest.1 (unsent (by simp [Block.recipient, fields]))
        (loses_nothing env s M t) plain ?_
      exact fun rest attach agrees ranked => undo_open_settles rest attach agrees ranked clock fuel _ _ _ fields
  | changeBlock previous representative =>
      have plain : n.block.kind ≠ .sendBlockV2 := by simp [Block.kind, fields]
      rw [reads_as_exact _ _ same plain, fields]
      refine undo_cuts stands latest later stands.consistent here (below_refl M) latest.1 (unsent (by simp [Block.recipient, fields]))
        (loses_nothing env s M t) plain ?_
      exact fun rest attach agrees ranked => undo_change_settles rest attach agrees ranked clock fuel _ _ fields

end Steps

theorem rollback_spec (env : Env) (clock : Hash → Nat) (rank : Hash → Nat) (top : Nat) [HashesApart env] (fuel : Nat) :
    RollbackSpec env clock rank top fuel := by
  induction fuel with
  | zero =>
      refine ⟨?_, ?_, ?_, ?_⟩ <;> intros <;> exact ⟨rfl, by simp only [budget]; omega⟩
  | succ fuel ih => exact ⟨rollback_step ih, loop_step ih, visit_step ih, wait_step ih⟩

theorem ledger_rollback_settles (env : Env) (clock : Hash → Nat) (M : Lattice) (s : Store) (h : Hash) (n : Note) (rank : Hash → Nat)
    (top fuel : Nat) [HashesApart env] (stands : Stands env rank top M s) (stored : M.get h = some n)
    (later : h ≠ genesisHash env) :
    Settles (ledgerRollback env clock fuel s h) (Starved (Legacy M ∧ budget rank top M h + 3 ≤ fuel)) fun s' => ∃ L,
    Cut env M h s L s' :=
  settles_enough ((rollback_spec env clock rank top fuel).rollback M s h n stands stored later) fun enough =>
    ⟨frees_legacy env rank top M h s stands enough.1, enough.2⟩

theorem ledger_rollback_returns (env : Env) (clock : Hash → Nat) (M : Lattice) (s : Store) (h : Hash) (n : Note) [HashesApart env]
    (consistent : Consistent env M) (agrees : Agrees M s) (stored : M.get h = some n) (later : h ≠ genesisHash env)
    (undoable : ∀ x m, M.get x = some m → Depends M x h → Undoable env s m.block) :
    Returns fun fuel => ledgerRollback env clock fuel s h := by
  obtain ⟨rank, top, ranked⟩ := exists_ranked consistent
  obtain ⟨need, frees⟩ := frees_undoable env s M h undoable
  -- A larger `top` still bounds the ranks, and leaves that much fuel for every balance.
  have wider : Ranked rank (top + need) M := ⟨ranked.drops, fun x m found => Nat.lt_add_right need (ranked.within x m found)⟩
  have enough : Frees env (4 * (top + need)) s M h := fun x m found path =>
    ⟨(frees x m found path).1, computes_more (by omega) (frees x m found path).2⟩
  exact returns_settled (fun fuel => (rollback_spec env clock rank (top + need) fuel).rollback M s h n
    ⟨consistent, agrees, wider⟩ stored later) enough

theorem cut_get {env : Env} {M L : Lattice} {h : Hash} {s s' : Store} [HashesApart env] (upper : Consistent env M)
    (cut : Cut env M h s L s') (x : Hash) : L.get x = none ↔ M.get x = none ∨ Depends M x h := by
  constructor
  · intro gone
    cases stored : M.get x with
    | none => exact Or.inl rfl
    | some n => exact Or.inr (cut.only x n stored gone).1
  · rintro (absent | depends)
    · by_contra present
      obtain ⟨n, found⟩ := Option.ne_none_iff_exists'.mp present
      rw [cut.below x n found] at absent
      cases absent
    · -- What is left is closed under what it names, so it cannot reach `h`.
      induction depends using Relation.ReflTransGen.head_induction_on with
      | refl => exact cut.removed
      | @head y d needs _ gone =>
          by_contra present
          obtain ⟨n, found⟩ := Option.ne_none_iff_exists'.mp present
          obtain ⟨m, stored, named, exists_⟩ := needs
          cases stored.symm.trans (cut.below y n found)
          obtain ⟨k, target⟩ := Option.ne_none_iff_exists'.mp exists_
          exact needs_stored cut.consistent y d n found ⟨k.block, upper.hashed d k target⟩ named gone

end Rai
