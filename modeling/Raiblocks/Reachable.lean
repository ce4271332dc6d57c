import Raiblocks.RollbackRefines

set_option autoImplicit false

namespace Rai

open Kit

section Genesis

variable (env : Env) (stamp : Signature × Work)

theorem genesis_latest [apart : HashesApart env] (x : Hash) (m : Note) :
    Lattice.Latest (genesisLattice env stamp) x m ↔ x = genesisHash env ∧ m = genesisNote env stamp := by
  have consistent := consistent_genesis env stamp
  constructor
  · exact fun latest => genesis_stored stamp latest.1
  · rintro ⟨rfl, rfl⟩
    refine ⟨Table.get_put_self _ _ _, (succ_zero_iff consistent _ (apart.zero _)).mpr ?_⟩
    intro c n stored above
    obtain ⟨rfl, rfl⟩ := genesis_stored stamp stored
    exact apart.zero _ above.symm

theorem genesis_heads [HashesApart env] {A : Type} (op : A → A → A) [Std.Commutative op] [Std.Associative op] (e : A)
    (f : Hash → Note → A) (unit : ∀ a, op a e = a) :
    Lattice.heads op e f (genesisLattice env stamp) = f (genesisHash env) (genesisNote env stamp) := by
  have last := ((genesis_latest env stamp _ _).mpr ⟨rfl, rfl⟩).2
  rw [Lattice.heads, genesisLattice, Table.fold_put_fresh _ _ _ _ _ _ (Table.get_empty _), Table.fold_empty, unit]
  exact if_pos last

theorem genesis_rep : Lattice.rep (genesisLattice env stamp) (genesisHash env) = genesisAccount env.network := by
  rw [Lattice.rep, genesisLattice, Table.get_put_self]
  rfl

theorem genesis_weight [HashesApart env] (r : Account) :
    Lattice.weight (genesisLattice env stamp) r = if r = genesisAccount env.network then genesisAmount else 0 := by
  have own : (genesisNote env stamp).repBlock = genesisHash env := rfl
  rw [Lattice.weight, genesis_heads env stamp _ _ _ add_zero, Lattice.share, own, genesis_rep]
  by_cases mine : r = genesisAccount env.network
  · rw [if_pos mine, if_pos mine.symm]
    rfl
  · rw [if_neg mine, if_neg (Ne.symm mine)]

theorem genesis_digest [HashesApart env] : Lattice.digest (genesisLattice env stamp) = genesisHash env := by
  have unit : ∀ a : Hash, a ^^^ 0 = a := fun _ => BitVec.xor_zero
  exact genesis_heads env stamp (A := Hash) (· ^^^ ·) 0 (fun h _ => h) unit

theorem genesis_info [HashesApart env] (account : Account) :
    Lattice.info (genesisLattice env stamp) account =
      if account = genesisAccount env.network then some ((genesisNote env stamp).info (genesisHash env) 0) else none := by
  split
  · next owner =>
      rw [owner]
      exact info_latest (consistent_genesis env stamp) _ _ ((genesis_latest env stamp _ _).mpr ⟨rfl, rfl⟩)
  · next other =>
      apply info_none account
      intro h n stored owner
      obtain ⟨rfl, rfl⟩ := genesis_stored stamp stored
      exact other owner.symm

theorem genesis_frontier [HashesApart env] (x : Hash) :
    Lattice.frontier (genesisLattice env stamp) x = if x = genesisHash env then some (genesisAccount env.network) else none := by
  apply Option.ext
  intro account
  rw [frontier_some_iff]
  constructor
  · rintro ⟨n, latest, owner⟩
    obtain ⟨rfl, rfl⟩ := (genesis_latest env stamp x n).mp latest
    rw [if_pos rfl, ← owner]
    rfl
  · intro found
    split at found
    · next here =>
        cases found
        exact ⟨genesisNote env stamp, (genesis_latest env stamp _ _).mpr ⟨here, rfl⟩, rfl⟩
    · cases found

theorem genesis_pending (key : PendingKey) : Lattice.pending (genesisLattice env stamp) key = none := by
  by_contra present
  obtain ⟨info, found⟩ := Option.ne_none_iff_exists'.mp present
  obtain ⟨n, sentTo, _⟩ := (pending_some_iff key info).mp found
  obtain ⟨_, rfl⟩ := genesis_stored stamp sentTo.1
  cases sentTo.2

theorem genesis_checkpoint (x : Hash) : Lattice.checkpoint (genesisLattice env stamp) x = none := by
  by_contra present
  obtain ⟨info, found⟩ := Option.ne_none_iff_exists'.mp present
  obtain ⟨n, stored, due, _⟩ := (checkpoint_some_iff x info).mp found
  obtain ⟨_, rfl⟩ := genesis_stored stamp stored
  exact absurd due (show ¬ 1 % blockInfoMax = 0 by decide)

theorem genesis_names (r : Account) :
    (∃ x m, (genesisLattice env stamp).get x = some m ∧ m.block.representative = r) ↔ r = genesisAccount env.network := by
  constructor
  · rintro ⟨x, m, stored, named⟩
    obtain ⟨_, rfl⟩ := genesis_stored stamp stored
    exact named.symm
  · rintro rfl
    exact ⟨genesisHash env, genesisNote env stamp, Table.get_put_self _ _ _, rfl⟩

structure Plain (L : Lattice) (s : Store) : Prop extends Becomes L Store.fresh s where
  exact : Exact L s

omit stamp in
theorem genesis_initial [apart : HashesApart env] (now : Nat) :
    ∃ s, genesisInitialize env Store.fresh now = .ok s ∧ Plain (genesisLattice env (genesisStamp env.network)) s := by
  have last := ((genesis_latest env (genesisStamp env.network) _ _).mpr ⟨rfl, rfl⟩).2
  obtain ⟨blocks, put, holds⟩ := block_put_holds env Table.empty (fun _ => 0) Store.fresh (genesisHash env) 0
    (genesisNote env (genesisStamp env.network))
    (fun kind x => Table.get_empty x) (fun m found => by rw [Table.get_empty] at found; cases found) rfl (Or.inl rfl)
    (fun zero => apart.zero _ zero.symm) (fun later => absurd rfl later)
  have written : blockPut env Store.fresh (genesisHash env) (genesisOpen env.network) 0 =
    .ok { Store.fresh with blocks := blocks } := put
  refine ⟨_, by rw [genesisInitialize, written, bind_ok], ?_⟩
  refine ⟨⟨⟨?_, ?_, ?_, ?_, ?_, ?_, ?_⟩, rfl, rfl, rfl⟩, ?_⟩
  · apply holds_congr _ _ _ _ holds
    intro x n stored
    obtain ⟨rfl, rfl⟩ := genesis_stored _ stored
    rw [if_pos rfl]
    exact last.symm
  · intro account
    change ((Table.empty.put (genesisAccount env.network) _).get account).map AccountInfo.timeless = _
    rw [genesis_info env _, Table.get_put, Table.get_empty]
    split <;> rfl
  · intro x
    change (Table.empty.put (genesisHash env) (genesisAccount env.network)).get x = _
    rw [genesis_frontier env _, Table.get_put, Table.get_empty]
  · intro key
    rw [genesis_pending]
    exact Table.get_empty key
  · intro x
    rw [genesis_checkpoint]
    exact Table.get_empty x
  · intro r
    change ((Table.empty.put (genesisAccount env.network) (BitVec.allOnes 128)).get r).getD 0 = _
    rw [genesis_weight env _ r, Table.get_put, Table.get_empty]
    split <;> rfl
  · change (Table.empty.put 0 0).put 0 (genesisHash env) = _
    rw [Table.put_put, genesis_digest env _]
  · intro r
    change (Table.empty.put (genesisAccount env.network) _).get r ≠ none ↔ _
    rw [genesis_names, Table.get_put, Table.get_empty]
    constructor
    · intro present
      split at present
      · next mine => exact ⟨mine ▸ genesis_account_ne_zero _, mine⟩
      · exact absurd rfl present
    · rintro ⟨_, mine⟩
      rw [if_pos mine]
      exact Option.some_ne_none _

omit stamp in
theorem genesis_started {env : Env} [HashesApart env] {now : Nat} {s : Store}
    (started : genesisInitialize env Store.fresh now = .ok s) :
    Plain (genesisLattice env (genesisStamp env.network)) s := by
  obtain ⟨s', found, plain⟩ := genesis_initial env now
  rw [started] at found
  exact Except.ok.inj found ▸ plain

end Genesis

inductive Reachable (env : Env) : Store → Prop where
  | genesis (now : Nat) (s : Store) (started : genesisInitialize env Store.fresh now = .ok s) : Reachable env s
  | process (fuel : Nat) (clock : Hash → Nat) (uninit : ProcessReturn) (s : Store) (block : Block) (out : Store × ProcessReturn)
      (reached : Reachable env s) (returned : ledgerProcess env fuel clock uninit s block = .ok out) : Reachable env out.1
  | rollback (fuel : Nat) (clock : Hash → Nat) (s : Store) (h : Hash) (s' : Store) (reached : Reachable env s)
      (stored : blockExists s h = true) (later : h ≠ genesisHash env) (returned : ledgerRollback env clock fuel s h = .ok s') :
      Reachable env s'

theorem process_returned {env : Env} {L : Lattice} {s : Store} {fuel : Nat} (clock : Hash → Nat)
    {uninit : ProcessReturn} {block : Block} (out : Store × ProcessReturn) [HashesApart env] (consistent : Consistent env L)
    (agrees : Agrees L s) (returned : ledgerProcess env fuel clock uninit s block = .ok out) : Processed env L s block out := by
  obtain ⟨rank, top, ranked⟩ := exists_ranked consistent
  exact settles_returned (ledger_process_settles consistent agrees clock uninit fuel block ranked) returned

theorem rollback_returned {env : Env} {M : Lattice} {s s' : Store} {fuel : Nat} (clock : Hash → Nat) {h : Hash} [HashesApart env]
    (consistent : Consistent env M) (agrees : Agrees M s) (stored : blockExists s h = true) (later : h ≠ genesisHash env)
    (returned : ledgerRollback env clock fuel s h = .ok s') : ∃ L, Cut env M h s L s' := by
  obtain ⟨rank, top, ranked⟩ := exists_ranked consistent
  obtain ⟨n, found⟩ := Option.ne_none_iff_exists'.mp ((exists_iff agrees.blocks h).mp stored)
  have settled := ledger_rollback_settles env clock M s h n rank top fuel ⟨consistent, agrees, ranked⟩ found later
  rwa [returned, settles_ok] at settled

theorem reachable_agrees {env : Env} {s : Store} [HashesApart env] (reached : Reachable env s) :
    ∃ L, Consistent env L ∧ Agrees L s := by
  induction reached with
  | genesis now s started => exact ⟨_, consistent_genesis env _, (genesis_started started).agrees⟩
  | process fuel clock uninit s block out _ returned ih =>
      obtain ⟨L, consistent, agrees⟩ := ih
      obtain ⟨n, accepted⟩ | ⟨same, _⟩ := process_returned clock out consistent agrees returned
      · exact ⟨_, consistent_attach consistent accepted.attach, accepted.agrees⟩
      · rw [same]
        exact ⟨L, consistent, agrees⟩
  | rollback fuel clock s h s' _ stored later returned ih =>
      obtain ⟨M, consistent, agrees⟩ := ih
      obtain ⟨L, cut⟩ := rollback_returned clock consistent agrees stored later returned
      exact ⟨L, cut.consistent, cut.becomes.agrees⟩

end Rai
