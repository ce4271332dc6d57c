import Raiblocks.Attempts
import Raiblocks.Convergence
import Raiblocks.FrontierServer

set_option autoImplicit false

namespace Rai

open Kit

-- The stores that handing blocks to the block processor can lead to from a given one, with the blocks handed over.
inductive Receives (env : Env) (start : Store) : List Block → Store → Prop where
  | start : Receives env start [] start
  | receive (fuel : Nat) (turns : Nat → Turn) (handed blocks : List Block) (s : Store) (out : Store × List Observation)
      (before : Receives env start handed s)
      (returned : processReceiveMany env fuel turns s (blocks.map fun block => ⟨block, false⟩) = .ok out) :
      Receives env start (handed ++ blocks) out.1
  | flush (handed : List Block) (s s' : Store) (before : Receives env start handed s) (returned : storeFlush s = .ok s') :
      Receives env start handed s'

-- The loop of `bootstrap_attempt::run` that shuffles the pulls, from the last one down to the second. `draw i` is what
-- `GenerateWord32 (0, i)` returns there.
def swapPulls (pulls : List PullInfo) (i k : Nat) : List PullInfo :=
  match pulls[i]?, pulls[k]? with
  | some first, some second => (pulls.set i second).set k first
  | _, _ => pulls

def shufflePulls (draw : (i : Nat) → Fin (i + 1)) : Nat → List PullInfo → List PullInfo
  | 0, pulls => pulls
  | i + 1, pulls => shufflePulls draw i (swapPulls pulls (i + 1) (draw (i + 1)))

def shuffle (draw : (i : Nat) → Fin (i + 1)) (pulls : List PullInfo) : List PullInfo := shufflePulls draw (pulls.length - 1) pulls

theorem swap_pulls_perm (pulls : List PullInfo) (i k : Nat) : (swapPulls pulls i k).Perm pulls := by
  unfold swapPulls
  split
  · next first second found found' =>
      obtain ⟨within, rfl⟩ := List.getElem?_eq_some_iff.mp found
      obtain ⟨within', rfl⟩ := List.getElem?_eq_some_iff.mp found'
      exact List.set_set_perm within within'
  · exact List.Perm.refl _

theorem shuffle_pulls_perm (draw : (i : Nat) → Fin (i + 1)) (i : Nat) (pulls : List PullInfo) :
    (shufflePulls draw i pulls).Perm pulls := by
  induction i generalizing pulls with
  | zero => exact List.Perm.refl _
  | succ i ih => exact (ih _).trans (swap_pulls_perm _ _ _)

-- Two nodes, and the ledger that all their blocks together make: no block of one is in the way of a block of the other.
structure Nodes (env : Env) (order mine theirs : List Block) (u c t : Store) : Prop where
  legacy : ∀ block ∈ order, block.kind ≠ .sendBlockV2
  whole : Replay env order u
  client : Replay env mine c
  peer : Replay env theirs t
  members : ∀ block, block ∈ order ↔ block ∈ mine ∨ block ∈ theirs

-- The ledgers of the two nodes and the one they belong to.
structure Paired (env : Env) (order mine theirs : List Block) (u c t : Store) (M L T : Lattice) : Prop where
  whole : Builds env order M
  client : Builds env mine L
  peer : Builds env theirs T
  plain : Plain M u
  plainClient : Plain L c
  plainPeer : Plain T t
  upper : Consistent env M
  lower : Consistent env L
  lowerPeer : Consistent env T
  below : Below L M
  belowPeer : Below T M
  legacy : Legacy M

-- The request of `frontier_req_client::run`: all accounts, of any age.
def frontierRequest : FrontierReq := ⟨0, .allOnes 32⟩

section Pair

variable {env : Env} {order mine theirs : List Block} {u c t : Store} {M L T : Lattice}

theorem builds_below [HashesApart env] (log log' : List Block) (L M : Lattice) (built : Builds env log L) (built' : Builds env log' M)
    (within : ∀ block ∈ log, block ∈ log') : Below L M := by
  refine below_of_blocks env L (builds_consistent built) M (builds_consistent built') ?_
  intro h n stored
  have listed := (builds_blocks built h n.block).mp (by rw [stored, Option.map_some])
  have stored' := (builds_blocks built' h n.block).mpr (listed.imp_right fun both => ⟨within _ both.1, both.2⟩)
  exact Option.map_eq_some_iff.mp stored'

theorem nodes_paired [HashesApart env] (nodes : Nodes env order mine theirs u c t) :
    ∃ M L T, Paired env order mine theirs u c t M L T := by
  have inMine : ∀ block ∈ mine, block ∈ order := fun block member => (nodes.members block).mpr (Or.inl member)
  have inTheirs : ∀ block ∈ theirs, block ∈ order := fun block member => (nodes.members block).mpr (Or.inr member)
  obtain ⟨M, whole, plain⟩ := replay_builds order u nodes.legacy nodes.whole
  obtain ⟨L, client, plainClient⟩ := replay_builds mine c (fun block member => nodes.legacy block (inMine block member)) nodes.client
  obtain ⟨T, peer, plainPeer⟩ := replay_builds theirs t (fun block member => nodes.legacy block (inTheirs block member)) nodes.peer
  exact ⟨M, L, T, whole, client, peer, plain, plainClient, plainPeer, builds_consistent whole, builds_consistent client,
    builds_consistent peer, builds_below mine order L M client whole inMine, builds_below theirs order T M peer whole inTheirs,
    builds_legacy whole nodes.legacy⟩

variable (paired : Paired env order mine theirs u c t M L T)
include paired

theorem paired_belong (blocks : List Block) (within : ∀ b ∈ blocks, b ∈ order) : ∀ b ∈ blocks, Belongs env M b := fun b member =>
  Option.map_eq_some_iff.mp ((builds_blocks paired.whole (b.hash env) b).mpr (Or.inr ⟨within b member, rfl⟩))

theorem paired_converging : Converging env M L mine c [] where
  consistent := paired.lower
  below := paired.below
  agrees := paired.plainClient.agrees
  exact := paired.plainClient.exact
  codes := paired.plainClient.codes
  files := files_none _ c paired.plainClient.unchecked paired.plainClient.cache
  queued := fun _ none => absurd none List.not_mem_nil
  covered := fun block member => Or.inl (builds_fresh mine L paired.client block member)

-- A block that the client does not hold is one that the peer has.
theorem held_elsewhere (members : ∀ block, block ∈ order ↔ block ∈ mine ∨ block ∈ theirs) (block : Block) (member : block ∈ order)
    (later : block.hash env ≠ genesisHash env) (unlisted : block ∉ mine) :
    ∃ m, T.get (block.hash env) = some m ∧ m.block = block ∧ L.get (block.hash env) = none := by
  have there := ((members block).mp member).resolve_left unlisted
  obtain ⟨m, present, same⟩ := Option.map_eq_some_iff.mp ((builds_blocks paired.peer (block.hash env) block).mpr (Or.inr ⟨there, rfl⟩))
  refine ⟨m, present, same, Option.eq_none_iff_forall_ne_some.mpr fun n held => ?_⟩
  have kept := Option.some.inj ((paired.below _ n held).symm.trans (paired.belowPeer _ m present))
  obtain ⟨first, _⟩ | ⟨listed, _⟩ := (builds_blocks paired.client (block.hash env) block).mp (by rw [held, kept, Option.map_some, same])
  · exact later first
  · exact unlisted listed

variable [HashesApart env]

-- A chain of blocks of the ledger, linked by hashes, passes every block of the account on its way.
theorem linked_covers (x stop : Hash) (chain : List Block) (linked : HashLinked env x chain stop)
    (belong : ∀ b ∈ chain, Belongs env M b) (n : Note) (stored : M.get x = some n) (y : Hash) (m : Note) (present : M.get y = some m)
    (owner : m.account = n.account) (under : m.height ≤ n.height) (beyond : ∀ k, M.get stop = some k → k.height < m.height) :
    m.block ∈ chain := by
  induction linked generalizing n with
  | last x => exact absurd (beyond n stored) (Nat.not_lt.mpr under)
  | next block rest stop linked ih =>
      obtain ⟨first, others⟩ := List.forall_mem_cons.mp belong
      obtain ⟨n', stored', same⟩ := first
      obtain rfl := Option.some.inj (stored.symm.trans stored')
      by_cases level : m.height = n.height
      · have positive := height_pos paired.upper stored
        obtain rfl := chain_linear paired.upper (n.height - 1) _ y n m stored present owner.symm (by omega) (by omega)
        obtain rfl := Option.some.inj (stored.symm.trans present)
        exact same ▸ List.mem_cons_self
      · have lower := height_pos paired.upper present
        have later : n.block.previous ≠ 0 := fun first => by
          have bottom := (open_height paired.upper stored).mpr first
          omega
        obtain ⟨before, found, follows⟩ := stored_before paired.upper stored later
        have height := follows.height
        rw [same] at found
        exact List.mem_cons_of_mem _ (ih others before found (owner.trans follows.account) (by omega) beyond)

-- A node that has a block has what lies under it.
theorem stored_under (x : Hash) (n : Note) (stored : L.get x = some n) (y : Hash) (m : Note) (present : M.get y = some m)
    (owner : m.account = n.account) (under : m.height ≤ n.height) : L.get y = some m := by
  have positive := height_pos paired.upper present
  obtain ⟨z, k, found, account, height, _⟩ := ancestor_at paired.lower x n m.height stored positive under
  have level : m.height = m.height - 1 + 1 := by omega
  obtain rfl := chain_linear paired.upper (m.height - 1) z y k m (paired.below z k found) present (account.trans owner.symm)
    (height.trans level) level
  exact kept_below L M z m paired.below present (by simp [found])

-- What the client lacks of the ledger of the peer is covered by one of the pulls.
theorem wanted_covers (y : Hash) (m : Note) (present : T.get y = some m) (lacks : L.get y = none) :
    ∃ pull ∈ (t.accounts.rows.map frontierPair).filterMap (wantedPull c), ∀ chain, HashLinked env pull.head chain pull.end →
      (∀ b ∈ chain, Belongs env M b) → m.block ∈ chain := by
  have agrees := paired.plainClient.agrees
  obtain ⟨x, n, stored, owner, last, under⟩ := exists_latest paired.lowerPeer y m present
  obtain ⟨time, known⟩ := account_latest paired.lowerPeer paired.plainPeer.agrees x n ⟨stored, last⟩
  have listed : (n.account, x) ∈ t.accounts.rows.map frontierPair :=
    List.mem_map.mpr ⟨(n.account, n.info x time), rows_from_zero t ▸ (t.accounts.mem_rows_from 0 _).mpr ⟨known, Nat.zero_le _⟩, rfl⟩
  have head := paired.belowPeer x n stored
  have block := paired.belowPeer y m present
  have covers : ∀ stop, (∀ k, M.get stop = some k → k.height < m.height) → ∀ chain, HashLinked env x chain stop →
      (∀ b ∈ chain, Belongs env M b) → m.block ∈ chain := fun stop beyond chain linked belong =>
    linked_covers paired x stop chain linked belong n head y m block owner.symm under beyond
  have absent : ¬ blockExists c x = true := by
    rw [exists_iff agrees.blocks]
    intro held
    rw [stored_under paired x n (kept_below L M x n paired.below head held) y m block owner.symm under] at lacks
    cases lacks
  cases mine : c.accounts.get n.account with
  | none =>
      refine ⟨pullInfo n.account x 0, List.mem_filterMap.mpr ⟨_, listed, by simp [wantedPull, mine]⟩, covers 0 fun k found => ?_⟩
      rw [zero_not_stored paired.upper] at found
      cases found
  | some info =>
      refine ⟨pullInfo n.account x info.head, List.mem_filterMap.mpr ⟨_, listed, by simp [wantedPull, mine, absent]⟩,
        covers info.head fun k found => ?_⟩
      obtain ⟨h, k', latest, same, read⟩ := account_owned agrees mine
      have head : info.head = h := by rw [read]; rfl
      obtain rfl := Option.some.inj ((paired.below h k' latest.1).symm.trans (head ▸ found))
      by_contra high
      rw [stored_under paired h k' latest.1 y m block (owner.symm.trans same.symm) (Nat.not_lt.mp high)] at lacks
      cases lacks

-- With every pull fetched, the client has been handed all it did not hold.
theorem pulls_cover (members : ∀ block, block ∈ order ↔ block ∈ mine ∨ block ∈ theirs) (added : List Block)
    (within : ∀ b ∈ added, b ∈ order) (fetched : ∀ pull ∈ (t.accounts.rows.map frontierPair).filterMap (wantedPull c),
    Fetched env added pull pull.end) (block : Block)
    (member : block ∈ order) (later : block.hash env ≠ genesisHash env) : block ∈ mine ++ added := by
  refine List.mem_append.mpr (or_iff_not_imp_left.mpr fun unlisted => ?_)
  obtain ⟨m, present, same, lacks⟩ := held_elsewhere paired members block member later unlisted
  obtain ⟨pull, wanted, covers⟩ := wanted_covers paired _ m present lacks
  obtain ⟨chain, linked, inside⟩ := fetched pull wanted
  have covered := covers chain linked (paired_belong paired chain fun b listed => within b (inside b listed))
  exact inside block (same ▸ covered)

section Receiving

variable (handed : List Block) (s : Store) (received : Receives env c handed s) (within : ∀ b ∈ handed, b ∈ order)
include received within

theorem receives_converging : ∃ L', Converging env M L' (mine ++ handed) s [] := by
  obtain ⟨rank, top, ranked⟩ := exists_ranked paired.upper
  induction received with
  | start => exact ⟨L, by rw [List.append_nil]; exact paired_converging paired⟩
  | receive fuel turns handed blocks s out _ returned ih =>
      obtain ⟨L', before⟩ := ih fun b member => within b (List.mem_append_left _ member)
      have settled := many_converging paired.upper ranked paired.legacy fuel turns blocks L' s before
        (paired_belong paired blocks fun b member => within b (List.mem_append_right _ member))
      rw [returned, settles_ok, List.append_assoc] at settled
      exact settled
  | flush handed s s' _ returned ih =>
      obtain ⟨L', before⟩ := ih within
      obtain ⟨s'', flushed, kept, _⟩ := flush_converging paired.legacy L' s [] before
      rw [returned] at flushed
      cases flushed
      exact ⟨L', kept⟩

theorem receives_return (blocks : List Block) (more : ∀ b ∈ blocks, b ∈ order) (turns : Nat → Turn)
    (limits : ∀ k, 1 ≤ (turns k).limit) :
    Returns fun fuel => processReceiveMany env fuel turns s (blocks.map fun block => ⟨block, false⟩) := by
  obtain ⟨rank, top, ranked⟩ := exists_ranked paired.upper
  obtain ⟨L', reached⟩ := receives_converging paired handed s received within
  exact returns_settled (fun fuel => many_converging paired.upper ranked paired.legacy fuel turns blocks L' s reached
    (paired_belong paired blocks more))
    limits

theorem caught_up (all : ∀ block ∈ order, block.hash env ≠ genesisHash env → block ∈ mine ++ handed) :
    SameTables s u ∧ s.representation = u.representation := by
  obtain ⟨L', reached⟩ := receives_converging paired handed s received within
  have same := converged paired.upper L' s reached fun h n stored later => by
    obtain ⟨first, _⟩ | ⟨member, hashed⟩ := (builds_blocks paired.whole h n.block).mp (by rw [stored, Option.map_some])
    · exact absurd first later
    · exact all _ member (hashed ▸ later)
  subst same
  obtain ⟨cache, table⟩ := files_nothing _ s reached.files fun k b missing => missing.2.2.1 missing.2.2.2
  have holds : Plain L' s := ⟨⟨reached.agrees, table, cache, reached.codes⟩, reached.exact⟩
  exact ⟨becomes_same holds.toBecomes paired.plain.toBecomes, exact_same L' s u holds paired.plain⟩

end Receiving

theorem accounts_nonzero (row : Account × AccountInfo) (member : row ∈ t.accounts.rows) : row.1 ≠ 0 := by
  intro zero
  obtain ⟨h, n, latest, owner, _⟩ := account_owned paired.plainPeer.agrees
    (zero ▸ ((t.accounts.mem_rows_from 0 row).mp (rows_from_zero t ▸ member)).1)
  exact stored_account_ne_zero paired.lowerPeer latest.1 owner

theorem serve_all (now : BitVec 64) (room : t.accounts.get (.allOnes 256) = none) :
    Yields (fun fuel => FrontierServer.serve t now fuel frontierRequest) (t.accounts.rows.map frontierPair ++ [(0, 0)]) := by
  refine ⟨t.accounts.rows.length + 1, fun fuel enough => ?_⟩
  have on := next_on t room ⟨0 - 1, ⟨0, 0, 0, 0, 0, 0⟩, frontierRequest⟩ t.accounts.rows (rows_from_zero t) (accounts_nonzero paired)
  change FrontierServer.serve t now fuel frontierRequest = _
  rw [FrontierServer.serve, FrontierServer.begin, FrontierServer.skipOld, next_request, if_neg (by decide), bind_ok]
  exact send_rows t room _ _ on fuel enough

theorem frontiers_compared (room : c.accounts.get (.allOnes 256) = none) (owned : Account → Bool) :
    ∃ bound, ∀ fuel, bound ≤ fuel → ∃ client,
      FrontierClient.run env.network c owned fuel [] ∅ (t.accounts.rows.map frontierPair ++ [(0, 0)]) = .ok client ∧
      client.finished = true ∧
      client.pulls.Perm ((t.accounts.rows.map frontierPair).filterMap (wantedPull c)) := by
  have agrees := paired.plainClient.agrees
  have ascending : ((t.accounts.rows.map frontierPair).map Prod.fst).Pairwise (· < ·) := by
    rw [List.map_map]
    exact t.accounts.rows_ascending
  obtain ⟨rank, top, ranked⟩ := exists_ranked paired.lower
  obtain ⟨begun, unpassed⟩ := start_merging paired.lower agrees owned (t.accounts.rows.map frontierPair) [] ∅
  refine ⟨c.accounts.keys.card + top + 2, fun fuel enough => ?_⟩
  have more : c.accounts.keys.card + top + 1 < fuel := enough
  refine settles_returns ?_ more
  rw [FrontierClient.run, List.foldlM_append]
  refine settles_bind (settles_fold
    (fun done client => Merging c owned (t.accounts.rows.map frontierPair) [] ∅ done client ∧
      ∀ account, c.accounts.get account ≠ none → Passed client account → ∃ other ∈ done, account ≤ other.1)
    _ _ ⟨begun, fun account present passed => absurd passed (unpassed account present)⟩ ?_) ?_
  · intro done reply rest client whole merged
    obtain ⟨row, member, rfl⟩ := List.mem_map.mp (whole ▸ List.mem_append_right done List.mem_cons_self)
    rw [FrontierClient.step, if_neg (by simp [merged.1.going])]
    exact received_frontier_settles room paired.lower agrees ranked done rest _ fuel client whole ascending
      (accounts_nonzero paired row member)
      merged.1 merged.2
  · intro client merged
    rw [List.foldlM_cons, FrontierClient.step, if_neg (by simp [merged.1.going])]
    refine settles_bind (terminator_settles room paired.lower agrees ranked fuel client merged.1 0) fun out ended => ?_
    exact ⟨ended.1, ended.2.1⟩

end Pair

theorem bootstrap_catches_up (env : Env) (apart : HashesApart env) (order mine theirs : List Block) (u c t : Store)
    (nodes : Nodes env order mine theirs u c t) (room : c.accounts.get (.allOnes 256) = none)
    (room' : t.accounts.get (.allOnes 256) = none) (now : BitVec 64) (owned : Account → Bool) :
    ∃ frontiers, Yields (fun fuel => FrontierServer.serve t now fuel frontierRequest) frontiers ∧
      ∃ bound, ∀ fuel, bound ≤ fuel → ∃ client, FrontierClient.run env.network c owned fuel [] ∅ frontiers = .ok client ∧
        client.finished = true ∧
        ∀ (draw : (i : Nat) → Fin (i + 1)) (idle : Nat) (actions : List AttemptAction) (attempt : BootstrapAttempt),
          (BootstrapAttempt.begin (shuffle draw client.pulls) idle).runs env actions = attempt →
          attempt.phase = .flushing → (attempt.step env .run).phase = .pushing → attempt.stopped = false → attempt.fading = [] →
          ∀ (handed : List Block) (s : Store), (∀ block ∈ handed, block ∈ order) → Receives env c handed s →
            (∀ (blocks : List Block) (turns : Nat → Turn), (∀ block ∈ blocks, block ∈ order) → (∀ k, 1 ≤ (turns k).limit) →
              Returns fun fuel => processReceiveMany env fuel turns s (blocks.map fun block => ⟨block, false⟩)) ∧
            ((∀ block ∈ attempt.added, block ∈ handed) → SameTables s u ∧ s.representation = u.representation) := by
  obtain ⟨M, L, T, paired⟩ := nodes_paired nodes
  obtain ⟨bound, merges⟩ := frontiers_compared paired room owned
  refine ⟨_, serve_all paired now room', bound, fun fuel enough => ?_⟩
  obtain ⟨client, ran, finished, pulls⟩ := merges fuel enough
  refine ⟨client, ran, finished, ?_⟩
  intro draw idle actions attempt run last left running gone handed s within received
  refine ⟨fun blocks turns more limits => receives_return paired handed s received within blocks more turns limits, fun all => ?_⟩
  have fetched : ∀ pull ∈ (t.accounts.rows.map frontierPair).filterMap (wantedPull c), Fetched env attempt.added pull pull.end := by
    intro pull wanted
    have queued : pull ∈ shuffle draw client.pulls := ((shuffle_pulls_perm draw _ _).trans pulls).mem_iff.mpr wanted
    obtain fetched | ⟨_, _, client, fades, _⟩ := loops_left run last left running pull queued
    · exact fetched
    · rw [gone] at fades
      cases fades
  refine caught_up paired handed s received within fun block member later => ?_
  have covered := pulls_cover paired nodes.members attempt.added (fun b listed => within b (all b listed)) fetched block member later
  exact List.mem_append.mpr ((List.mem_append.mp covered).imp_right (all block))

-- The peer has one block more. One connection closes before it comes, the next one brings it.
theorem bootstrap_catches_up_sample : ∃ u c t attempt s, Nodes sampleEnv [sampleSend] [] [sampleSend] u c t ∧
    attempt = (BootstrapAttempt.begin [pullInfo (genesisAccount sampleEnv.network) (sampleSend.hash sampleEnv)
      (genesisHash sampleEnv)] 1).runs sampleEnv (sampleActions sampleSend) ∧
    Receives sampleEnv c attempt.added s ∧ SameTables s u ∧ s.representation = u.representation := by
  let pull := pullInfo (genesisAccount sampleEnv.network) (sampleSend.hash sampleEnv) (genesisHash sampleEnv)
  let attempt := (BootstrapAttempt.begin [pull] 1).runs sampleEnv (sampleActions sampleSend)
  obtain ⟨c, _, client, room, wanted⟩ := replay_checked sampleEnv 20 [] (fun c => c.accounts.get (.allOnes 256) = none ∧
    wantedPull c (genesisAccount sampleEnv.network, sampleSend.hash sampleEnv) = some pull) (by decide +kernel)
  obtain ⟨t, _, peer, room', rows⟩ := replay_checked sampleEnv 20 [sampleSend] (fun t => t.accounts.get (.allOnes 256) = none ∧
    t.accounts.rows.map frontierPair = [(genesisAccount sampleEnv.network, sampleSend.hash sampleEnv)]) (by decide +kernel)
  have nodes : Nodes sampleEnv [sampleSend] [] [sampleSend] t c t := ⟨by decide, peer, client, peer, by simp⟩
  obtain ⟨frontiers, served, bound, merges⟩ := bootstrap_catches_up sampleEnv sample_apart [sampleSend] []
    [sampleSend] t c t nodes room room' 0
    fun _ => false
  obtain ⟨M, L, T, paired⟩ := nodes_paired nodes
  obtain ⟨bound', wanting⟩ := frontiers_compared paired room fun _ => false
  obtain rfl := yields_unique served (serve_all paired 0 room')
  obtain ⟨client, ran, _, caught⟩ := merges (max bound bound') (le_max_left _ _)
  obtain ⟨client', ran', _, pulls⟩ := wanting (max bound bound') (le_max_right _ _)
  obtain rfl := Except.ok.inj (ran.symm.trans ran')
  rw [rows, List.filterMap_cons_some wanted, List.filterMap_nil, List.perm_singleton] at pulls
  have ended : attempt.phase = .flushing ∧ (attempt.step sampleEnv .run).phase = .pushing ∧ attempt.stopped = false ∧
    attempt.fading.isEmpty = true ∧
      attempt.added = [sampleSend, sampleSend] := by decide +kernel
  obtain ⟨last, left, running, gone, added⟩ := ended
  have reached := caught (fun _ => 0) 1 (sampleActions sampleSend) attempt (by rw [pulls]; rfl) last left running
    (List.isEmpty_iff.mp gone)
  let turns : Nat → Turn := fun _ => ⟨1, true, fun _ => 0, ⟨.progress, 0, 0, 0⟩, insertionOrder⟩
  have within : ∀ block ∈ attempt.added, block ∈ [sampleSend] := by simp [added]
  obtain ⟨enough, returns⟩ := (reached [] c (by simp) .start).1 attempt.added turns within fun _ => le_rfl
  obtain ⟨out, returned⟩ := returns enough le_rfl
  have received := Receives.receive enough turns [] attempt.added c out .start returned
  rw [List.nil_append] at received
  exact ⟨t, c, t, attempt, out.1, nodes, rfl, received, (reached _ _ within received).2 fun _ => id⟩

end Rai
