import Raiblocks.Replay

set_option autoImplicit false

namespace Rai

open Kit

inductive Path (s : Store) : Hash → Nat → Hash → Prop where
  | start (h : Hash) : Path s h 0 h
  | step (h x : Hash) (k : Nat) (block : Block) (read : blockGet s h = .ok (some block)) (rest : Path s block.previous k x) :
      Path s h (k + 1) x

def OnChain (s : Store) (account : Account) (x : Hash) : Prop :=
  ∃ info k, s.accounts.get account = some info ∧ k < info.blockCount ∧ Path s info.head k x

theorem path_zero_iff (s : Store) (h x : Hash) : Path s h 0 x ↔ x = h := by
  constructor
  · intro path
    cases path
    rfl
  · rintro rfl
    exact Path.start x

theorem path_succ_iff {s : Store} {h : Hash} (x : Hash) (k : Nat) {block : Block} (read : blockGet s h = .ok (some block)) :
    Path s h (k + 1) x ↔ Path s block.previous k x := by
  constructor
  · intro path
    cases path with
    | step _ _ _ block' read' rest =>
        rw [read] at read'
        cases read'
        exact rest
  · exact Path.step h x k block read

section Chains

variable {env : Env} {L : Lattice} {s : Store} [HashesApart env] (consistent : Consistent env L) (agrees : Agrees L s)

include agrees in
theorem read_stored {h : Hash} {block : Block} (read : blockGet s h = .ok (some block)) :
    ∃ n, L.get h = some n ∧ n.block.ReadsAs block := by
  cases found : L.get h with
  | none =>
      rw [get_absent agrees.blocks h found] at read
      cases read
  | some n =>
      obtain ⟨block', read', same⟩ := get_reads_as agrees.blocks h n found
      rw [read'] at read
      cases read
      exact ⟨n, rfl, same⟩

include consistent agrees

theorem path_down (k : Nat) (h : Hash) (n : Note) (stored : L.get h = some n) (within : k < n.height) :
    ∃ x m, Path s h k x ∧ L.get x = some m ∧ m.account = n.account ∧ m.height + k = n.height ∧ m.openBlock = n.openBlock := by
  induction k generalizing h n with
  | zero => exact ⟨h, n, Path.start h, stored, rfl, rfl, rfl⟩
  | succ k ih =>
      obtain ⟨block, read, same⟩ := get_reads_as agrees.blocks h n stored
      have later : n.block.previous ≠ 0 := by
        intro first
        have bottom := (open_height consistent stored).mpr first
        omega
      obtain ⟨before, present, follows⟩ := stored_before consistent stored later
      obtain ⟨x, m, path, found, owner, level, opened⟩ := ih n.block.previous before present (by have := follows.height; omega)
      rw [← reads_as_previous n.block same] at path
      refine ⟨x, m, Path.step h x k block read path, found, owner.trans follows.account.symm, ?_, opened.trans follows.openBlock.symm⟩
      have := follows.height
      omega

omit [HashesApart env] consistent agrees in
theorem path_unique (h x y : Hash) (k : Nat) (path : Path s h k x) (path' : Path s h k y) : x = y := by
  induction path with
  | start h => exact ((path_zero_iff s h y).mp path').symm
  | step h x k block read _ ih => exact ih ((path_succ_iff y k read).mp path')

omit [HashesApart env] consistent agrees in
theorem path_rest (h x y : Hash) (j k : Nat) (path : Path s h j x) (path' : Path s h (j + k) y) : Path s x k y := by
  induction path with
  | start h => rwa [Nat.zero_add] at path'
  | step h x j block read _ ih =>
      rw [Nat.succ_add] at path'
      exact ih ((path_succ_iff y (j + k) read).mp path')

omit [HashesApart env] consistent agrees in
theorem path_append (h x y : Hash) (j k : Nat) (path : Path s h j x) (path' : Path s x k y) : Path s h (j + k) y := by
  induction path with
  | start h => rwa [Nat.zero_add]
  | step h x j block read _ ih =>
      rw [Nat.succ_add]
      exact (path_succ_iff y (j + k) read).mpr (ih path')

theorem path_height (h x : Hash) (k : Nat) (path : Path s h k x) (n m : Note) (stored : L.get h = some n) (stored' : L.get x = some m) :
    m.height + k = n.height := by
  induction path generalizing n with
  | start h =>
      cases stored.symm.trans stored'
      rfl
  | step h x k block read rest ih =>
      obtain ⟨n', found, reads⟩ := read_stored agrees read
      cases stored.symm.trans found
      have below := reads_as_previous n.block reads
      rw [below] at rest ih
      have later : n.block.previous ≠ 0 := by
        intro first
        rw [first] at rest
        cases rest with
        | start => exact stored_ne_zero consistent 0 m stored' rfl
        | step _ _ _ block' read' _ =>
            obtain ⟨_, zero, _⟩ := read_stored agrees read'
            exact stored_ne_zero consistent 0 _ zero rfl
      obtain ⟨before, present, follows⟩ := stored_before consistent stored later
      have shorter := ih before present stored'
      have above := follows.height
      omega

theorem on_chain_stored {account : Account} {x : Hash} (chained : OnChain s account x) :
    ∃ m, L.get x = some m ∧ m.account = account := by
  obtain ⟨info, k, known, within, path⟩ := chained
  obtain ⟨h, n, latest, owner, same⟩ := account_owned agrees known
  rw [same] at within path
  obtain ⟨y, m, path', found, owner', _⟩ := path_down consistent agrees k h n latest.1 within
  rw [path_unique h x y k path path']
  exact ⟨m, found, owner'.trans owner⟩

theorem on_chain_iff (x : Hash) (m : Note) (stored : L.get x = some m) (account : Account) :
    OnChain s account x ↔ account = m.account := by
  constructor
  · intro chained
    obtain ⟨m', found, owner⟩ := on_chain_stored consistent agrees chained
    cases stored.symm.trans found
    exact owner.symm
  · rintro rfl
    obtain ⟨t, n, found, owner, last, above⟩ := exists_latest consistent x m stored
    have positive := height_pos consistent stored
    obtain ⟨time, known⟩ := account_latest consistent agrees t n ⟨found, last⟩
    rw [owner] at known
    obtain ⟨y, m', path, present, owner', level, _⟩ :=
      path_down consistent agrees (n.height - m.height) t n found (by omega)
    have here := chain_linear consistent (m.height - 1) x y m m' stored present (owner.symm.trans owner'.symm) (by omega) (by omega)
    subst here
    exact ⟨_, n.height - m.height, known, show n.height - m.height < n.height by omega, path⟩

omit agrees in
theorem root_opened (h : Hash) (n : Note) (stored : L.get h = some n) (first : n.block.previous = 0) : n.block.root = n.account := by
  have kind := (previous_zero_iff consistent stored).mp first
  by_cases atGenesis : h = genesisHash env
  · subst atGenesis
    obtain ⟨stamp, rfl⟩ := stored_genesis consistent n stored
    rfl
  · obtain ⟨source, representative, _, fields, _⟩ := entry_open L h n (consistent.entry h n stored atGenesis) kind
    simp [Block.root, fields]

omit [HashesApart env] consistent agrees in
theorem root_continued (block : Block) (later : block.kind ≠ .openBlock) : block.root = block.previous := by
  unfold Block.root
  split
  · next fields => exact absurd (by simp [Block.kind, fields]) later
  · rfl

omit agrees in
theorem root_injective {x y : Hash} {n m : Note} (stored : L.get x = some n) (stored' : L.get y = some m)
    (same : n.block.root = m.block.root) : x = y := by
  have opened := root_opened consistent
  have continued : ∀ h k, L.get h = some k → k.block.previous ≠ 0 → k.block.root = k.block.previous := fun h k found later =>
    root_continued k.block ((previous_zero_iff consistent found).not.mp later)
  have distinct : ∀ h k i j, L.get h = some k → L.get i = some j → k.block.previous = 0 → j.block.previous ≠ 0 →
      k.block.root ≠ j.block.root := by
    intro h k i j found found' first later clash
    obtain ⟨before, present, _⟩ := stored_before consistent found' later
    rw [opened h k found first, continued i j found' later] at clash
    rw [← clash, account_not_stored consistent k.account (stored_account consistent h k found)] at present
    cases present
  by_cases first : n.block.previous = 0 <;> by_cases first' : m.block.previous = 0
  · rw [opened x n stored first, opened y m stored' first'] at same
    exact consistent.chain x n y m stored stored' same (first.trans first'.symm)
  · exact absurd same (distinct x n y m stored stored' first first')
  · exact absurd same.symm (distinct y m x n stored' stored first' first)
  · rw [continued x n stored first, continued y m stored' first'] at same
    obtain ⟨before, present, follows⟩ := stored_before consistent stored first
    obtain ⟨before', present', follows'⟩ := stored_before consistent stored' first'
    rw [same] at present
    cases present.symm.trans present'
    exact consistent.chain x n y m stored stored' (follows.account.trans follows'.account.symm) same

theorem read_injective (x y : Hash) (block : Block) (read : blockGet s x = .ok (some block))
    (read' : blockGet s y = .ok (some block)) : x = y := by
  obtain ⟨n, stored, same⟩ := read_stored agrees read
  obtain ⟨m, stored', same'⟩ := read_stored agrees read'
  have root := (reads_as_root n.block block same).symm.trans (reads_as_root m.block block same')
  exact root_injective consistent stored stored' root

theorem successor_iff (h x : Hash) (n : Note) (stored : L.get h = some n) :
    blockSuccessor s h = .ok x ∧ x ≠ 0 ↔ ∃ block, blockGet s x = .ok (some block) ∧ block.previous = h := by
  rw [successor_stored agrees.blocks h n stored]
  constructor
  · rintro ⟨same, nonzero⟩
    obtain rfl := Except.ok.inj same
    obtain ⟨m, found, above⟩ := succ_child L h nonzero
    obtain ⟨block, read, reads⟩ := get_reads_as agrees.blocks _ m found
    exact ⟨block, read, (reads_as_previous m.block reads).trans above⟩
  · rintro ⟨block, read, above⟩
    obtain ⟨m, found, reads⟩ := read_stored agrees read
    rw [reads_as_previous m.block reads] at above
    rw [succ_of_child consistent found above (stored_ne_zero consistent h n stored)]
    exact ⟨rfl, stored_ne_zero consistent x m found⟩

theorem head_iff (h : Hash) (account : Account) :
    (∃ info, s.accounts.get account = some info ∧ info.head = h) ↔ ∃ n, L.Latest h n ∧ n.account = account := by
  constructor
  · rintro ⟨info, known, rfl⟩
    obtain ⟨t, n, latest, owner, same⟩ := account_owned agrees known
    rw [same]
    exact ⟨n, latest, owner⟩
  · rintro ⟨n, latest, rfl⟩
    obtain ⟨time, known⟩ := account_latest consistent agrees h n latest
    exact ⟨_, known, rfl⟩

end Chains

-- The account chains, the successor links and the frontiers fit together, and no chain ever forks.
theorem chains_never_fork (env : Env) (apart : HashesApart env) (s : Store) (reached : Reachable env s) :
    (∀ account info, s.accounts.get account = some info → 1 ≤ info.blockCount ∧
      Path s info.head (info.blockCount - 1) info.openBlock ∧
      ∃ block, blockGet s info.openBlock = .ok (some block) ∧ block.kind = .openBlock) ∧
    (∀ x, blockExists s x = true → ∃! account, OnChain s account x) ∧
    (∀ x y block block', blockGet s x = .ok (some block) → blockGet s y = .ok (some block') → block.root = block'.root → x = y) ∧
    (∀ h x, blockExists s h = true →
      (blockSuccessor s h = .ok x ∧ x ≠ 0 ↔ ∃ block, blockGet s x = .ok (some block) ∧ block.previous = h)) ∧
    (∀ h, blockExists s h = true →
      (blockSuccessor s h = .ok 0 ↔ ∃ account info, s.accounts.get account = some info ∧ info.head = h)) ∧
    ∀ h account, s.frontiers.get h = some account ↔ ∃ info, s.accounts.get account = some info ∧ info.head = h := by
  obtain ⟨L, consistent, agrees⟩ := reachable_agrees reached
  have stored_of : ∀ x, blockExists s x = true → ∃ n, L.get x = some n := fun x present =>
    Option.ne_none_iff_exists'.mp ((exists_iff agrees.blocks x).mp present)
  refine ⟨?_, ?_, ?_, ?_, ?_, ?_⟩
  · intro account info known
    obtain ⟨h, n, latest, _, same⟩ := account_owned agrees known
    have positive := height_pos consistent latest.1
    obtain ⟨x, m, path, found, _, level, opened⟩ := path_down consistent agrees (n.height - 1) h n latest.1 (by omega)
    have first := (open_height consistent found).mp (by omega)
    obtain ⟨own, _⟩ := stored_open consistent found first
    obtain ⟨block, read, reads⟩ := get_reads_as agrees.blocks x m found
    rw [same]
    simp only [Note.info_blockCount, Note.info_head, Note.info_openBlock]
    rw [← opened, own]
    refine ⟨positive, path, block, read, ?_⟩
    rw [reads_as_kind m.block reads]
    exact (previous_zero_iff consistent found).mp first
  · intro x present
    obtain ⟨n, stored⟩ := stored_of x present
    refine ⟨n.account, (on_chain_iff consistent agrees x n stored n.account).mpr rfl, ?_⟩
    exact fun account chained => (on_chain_iff consistent agrees x n stored account).mp chained
  · intro x y block block' read read' same
    obtain ⟨n, stored, reads⟩ := read_stored agrees read
    obtain ⟨m, stored', reads'⟩ := read_stored agrees read'
    rw [reads_as_root n.block block reads, reads_as_root m.block block' reads'] at same
    exact root_injective consistent stored stored' same
  · intro h x present
    obtain ⟨n, stored⟩ := stored_of h present
    exact successor_iff consistent agrees h x n stored
  · intro h present
    obtain ⟨n, stored⟩ := stored_of h present
    simp only [head_iff consistent agrees h]
    rw [successor_stored agrees.blocks h n stored]
    constructor
    · intro last
      exact ⟨n.account, n, ⟨stored, Except.ok.inj last⟩, rfl⟩
    · rintro ⟨_, _, latest, _⟩
      rw [latest.2]
  · intro h account
    rw [head_iff consistent agrees h, agrees.frontiers]
    exact frontier_some_iff h account

theorem chains_never_fork_sample : ∃ s, Replay sampleEnv sampleLog s ∧ ∀ x, blockExists s x = true →
    ∃! account, OnChain s account x := by
  obtain ⟨s, replay⟩ := sample_replayed
  exact ⟨s, replay, (chains_never_fork sampleEnv sample_apart s (replay_reachable replay)).2.1⟩

end Rai
