import Raiblocks.Replay
import Raiblocks.UncheckedSpec

set_option autoImplicit false

namespace Rai

open Kit

-- The stores that handing blocks to the block processor can lead to, with the blocks
-- handed over so far; the store may be flushed in between.
inductive Delivered (env : Env) : List Block → Store → Prop where
  | genesis (now : Nat) (s : Store) (started : genesisInitialize env Store.fresh now = .ok s) : Delivered env [] s
  | receive (fuel : Nat) (turns : Nat → Turn) (handed blocks : List Block) (s : Store) (out : Store × List Observation)
      (delivered : Delivered env handed s)
      (returned : processReceiveMany env fuel turns s (blocks.map fun block => ⟨block, false⟩) = .ok out) :
      Delivered env (handed ++ blocks) out.1
  | flush (handed : List Block) (s s' : Store) (delivered : Delivered env handed s) (returned : storeFlush s = .ok s') :
      Delivered env handed s'

-- `M` is the lattice that all the blocks together make, `L` what the ledger has of it.
def Belongs (env : Env) (M : Lattice) (b : Block) : Prop := ∃ n, M.get (b.hash env) = some n ∧ n.block = b

def Missing (env : Env) (M L : Lattice) (k : Hash) (b : Block) : Prop :=
  Belongs env M b ∧ (k = b.previous ∨ k = b.source) ∧ M.get k ≠ none ∧ L.get k = none

inductive Handled (env : Env) (M L : Lattice) (s : Store) (b : Block) : Store × ProcessReturn → Prop where
  | accepted (n : Note) (out : Store × ProcessReturn) (stored : M.get (b.hash env) = some n) (accepted : Accepted env L s b n out) :
      Handled env M L s b out
  | known (result : ProcessReturn) (code : result.code = .old) (present : L.get (b.hash env) ≠ none) : Handled env M L s b (s, result)
  | waits (k : Hash) (result : ProcessReturn) (code : ¬ (result.code = .progress ∨ result.code = .old))
    (missing : Missing env M L k b) :
      Handled env M L s b (uncheckedPut s k b, result)

section Handling

variable {env : Env} {M L : Lattice} {s : Store} [HashesApart env] (upper : Consistent env M) (lower : Consistent env L)
  (below : Below L M)
include upper lower below

theorem receive_one_settles (rank : Hash → Nat) (top fuel : Nat) (ranked : Ranked rank top M) (legacy : Legacy M) (agrees : Agrees L s)
    (clock : Hash → Nat) (uninit : ProcessReturn) (b : Block) (belongs : Belongs env M b) :
    Settles (processReceiveOne env fuel clock uninit s b) (Starved (4 * top ≤ fuel)) (Handled env M L s b) := by
  obtain ⟨n, stored, rfl⟩ := belongs
  unfold processReceiveOne
  cases found : L.get (n.block.hash env) with
  | some m =>
      cases stored.symm.trans (below _ m found)
      have read := get_legacy agrees.blocks _ n found (legacy _ n stored)
      rw [process_known clock uninit fuel n.block (exists_stored agrees.blocks found), bind_ok]
      simp only [read, bind_ok]
      -- The copy in the ledger has the same work, so nothing is written.
      rw [if_neg (by simp), settles_ok]
      exact Handled.known _ rfl (by simp [found])
  | none =>
      have settled := ledger_process_settles lower agrees clock uninit fuel n.block (ranked_below rank top L M ranked below)
      have later : n.block.hash env ≠ genesisHash env := by
        intro atGenesis
        exact genesis_present lower (atGenesis ▸ found)
      have entry := upper.entry _ n stored later
      refine settles_bind (settles_mono settled ?_ fun _ => id) ?_
      · rintro stopped (starved | ⟨_, nobody⟩)
        · exact ⟨starved.1, fun enough => starved.2 ⟨legacy_below L M below legacy, enough,
            legacy_loads env fuel n.block (legacy _ n stored)⟩⟩
        · exact absurd nobody (entry_names _ n entry)
      · rintro ⟨s', result⟩ (⟨m, accepted⟩ | ⟨same, refused⟩)
        · have code : result.code = .progress := accepted.code
          have note := entry_unique M _ m n (entry_below L M below _ m accepted.attach.entry) entry accepted.carries
          subst note
          simp only [code, settles_ok]
          exact Handled.accepted m _ stored accepted
        · cases same
          have refused : Refused env L n.block result.code := refused
          have belongs : Belongs env M n.block := ⟨n, stored, rfl⟩
          obtain ⟨code, missing⟩ | ⟨code, missing⟩ := refused_below upper lower below n result.code stored found refused
          · simp only [code, settles_ok]
            exact Handled.waits _ result (by simp [code]) ⟨belongs, Or.inl rfl, missing⟩
          · simp only [code, settles_ok]
            exact Handled.waits _ result (by simp [code]) ⟨belongs, Or.inr rfl, missing⟩

end Handling

-- The ledger holds `L`, everything else handed over is in the queue or waits for something that is missing.
structure Converging (env : Env) (M L : Lattice) (handed : List Block) (s : Store) (queue : List BlockProcessorItem) : Prop where
  consistent : Consistent env L
  below : Below L M
  agrees : Agrees L s
  exact : Exact L s
  codes : s.vmCodes = .empty
  files : Files (Missing env M L) s
  queued : ∀ item ∈ queue, item.force = false ∧ Belongs env M item.block
  covered : ∀ b ∈ handed, L.get (b.hash env) ≠ none ∨ (∃ item ∈ queue, item.block = b) ∨ ∃ k, Awaits s k b

-- How many items a queue can still make the processor handle, if no more than `total`
-- copies of blocks are around: each one that is not new leaves the queue.
def potential (M L : Lattice) (total : Nat) (queue : List BlockProcessorItem) : Nat :=
  (M.size - L.size) * (total + 1) + queue.length

theorem size_mono (L M : Lattice) (below : Below L M) : L.size ≤ M.size := by
  apply Finset.card_le_card
  intro x member
  obtain ⟨n, found⟩ := Option.ne_none_iff_exists'.mp ((Table.mem_keys L x).mp member)
  exact (Table.mem_keys M x).mpr (by simp [below x n found])

theorem agrees_unchecked (L : Lattice) (s : Store) (table : Table Hash (List Bytes)) (cache : List (Hash × Block))
    (agrees : Agrees L s) :
    Agrees L { s with unchecked := table, uncheckedCache := cache } :=
  ⟨agrees.blocks, agrees.accounts, agrees.frontiers, agrees.pending, agrees.checkpoints, agrees.weights, agrees.checksum⟩

theorem take_converging (env : Env) (order : CacheOrder) (M L L' : Lattice) (handed : List Block) (s s' : Store)
    (item : BlockProcessorItem) (queue : List BlockProcessorItem) (converging : Converging env M L handed s (item :: queue))
    (larger : Below L L') (present : L'.get (item.block.hash env) ≠ none)
    (grown : ∀ x, x ≠ item.block.hash env → L.get x = none → L'.get x = none) (consistent : Consistent env L') (below : Below L' M)
    (agrees : Agrees L' s') (exact : Exact L' s') (codes : s'.vmCodes = .empty) (table : s'.unchecked = s.unchecked)
    (cache : s'.uncheckedCache = s.uncheckedCache) :
    ∃ cached, uncheckedGet order s' (item.block.hash env) = .ok cached ∧
      cached.foldl (fun s block => uncheckedDel s (item.block.hash env) block) s' = uncheckedTake s' (item.block.hash env) ∧
      (∀ b ∈ cached, Missing env M L (item.block.hash env) b) ∧
      (uncheckedTake s' (item.block.hash env)).waiting + cached.length = s.waiting ∧
      Converging env M L' handed (uncheckedTake s' (item.block.hash env))
        ((cached.map fun block => ⟨block, false⟩).reverse ++ queue) := by
  have files := files_congr s s' table cache _ converging.files
  obtain ⟨cached, got, deleted, members, missing, waiting⟩ := take_spec (Missing env M L) order s' (item.block.hash env) files
  rw [waiting_congr s s' table cache] at waiting
  refine ⟨cached, got, deleted, missing, waiting, consistent, below, agrees_unchecked L' s' _ _ agrees, exact, codes, ?_, ?_, ?_⟩
  · refine files_mono _ _ _ (files_take _ s' _ files) ?_
    rintro x b ⟨⟨belongs, named, stored, absent⟩, other⟩
    exact ⟨belongs, named, stored, grown x other absent⟩
  · intro other member
    obtain back | member := List.mem_append.mp member
    · obtain ⟨b, waited, rfl⟩ := List.mem_map.mp (List.mem_reverse.mp back)
      exact ⟨rfl, (missing b waited).1⟩
    · exact converging.queued other (List.mem_cons_of_mem _ member)
  · intro b member
    obtain here | ⟨other, queued, same⟩ | ⟨x, awaits⟩ := converging.covered b member
    · obtain ⟨n, found⟩ := Option.ne_none_iff_exists'.mp here
      exact Or.inl (by simp [larger _ n found])
    · obtain rfl | queued := List.mem_cons.mp queued
      · exact Or.inl (same ▸ present)
      · exact Or.inr (Or.inl ⟨other, List.mem_append_right _ queued, same⟩)
    · rw [← awaits_congr s s' table cache] at awaits
      by_cases other : x = item.block.hash env
      · subst other
        refine Or.inr (Or.inl ⟨⟨b, false⟩, List.mem_append_left _ (List.mem_reverse.mpr ?_), rfl⟩)
        exact List.mem_map_of_mem ((members b).mpr awaits)
      · exact Or.inr (Or.inr ⟨x, (awaits_take s' _ x b other).mpr awaits⟩)

theorem put_converging (env : Env) (M L : Lattice) (handed : List Block) (s : Store) (item : BlockProcessorItem)
    (queue : List BlockProcessorItem) (k : Hash) (converging : Converging env M L handed s (item :: queue))
    (missing : Missing env M L k item.block) : Converging env M L handed (uncheckedPut s k item.block) queue := by
  refine ⟨converging.consistent, converging.below, agrees_unchecked L s _ _ converging.agrees, converging.exact, converging.codes,
    files_put _ s k item.block converging.files missing, fun other member => converging.queued other
    (List.mem_cons_of_mem _ member), ?_⟩
  intro b member
  obtain present | ⟨other, queued, same⟩ | ⟨x, awaits⟩ := converging.covered b member
  · exact Or.inl present
  · obtain rfl | queued := List.mem_cons.mp queued
    · exact Or.inr (Or.inr ⟨k, (awaits_put s k _ k b).mpr (Or.inr ⟨rfl, same.symm⟩)⟩)
    · exact Or.inr (Or.inl ⟨other, queued, same⟩)
  · exact Or.inr (Or.inr ⟨x, (awaits_put s k _ x b).mpr (Or.inl awaits)⟩)

theorem potential_grows (M L : Lattice) (h : Hash) (n : Note) (total : Nat) (queue queue' : List BlockProcessorItem)
    (fresh : L.get h = none) (below : Below (L.put h n) M) (load : queue'.length ≤ total) :
    potential M (L.put h n) total queue' < potential M L total queue := by
  have larger := size_below L (L.put h n) h n (below_put L h n fresh) (Table.get_put_self L h n) fresh
  have within := size_mono (L.put h n) M below
  have fewer : M.size - Table.size (L.put h n) + 1 ≤ M.size - L.size := by omega
  have scaled := Nat.mul_le_mul_right (total + 1) fewer
  rw [Nat.add_mul] at scaled
  simp only [potential]
  omega

section Rounds

variable {env : Env} {M : Lattice} {rank : Hash → Nat} {top : Nat} {handed : List Block} [HashesApart env]
  (upper : Consistent env M) (ranked : Ranked rank top M) (legacy : Legacy M)
include upper ranked legacy

-- One item is taken off the queue: there are no more copies around than before, and
-- either the ledger has grown or the queue is shorter.
theorem item_settles (fuel total : Nat) (turn : Turn) (L : Lattice) (s : Store) (item : BlockProcessorItem)
    (queue : List BlockProcessorItem) (converging : Converging env M L handed s (item :: queue))
    (load : queue.length + 1 + s.waiting ≤ total) :
    Settles (processItem env fuel turn s item queue) (Starved (4 * top ≤ fuel)) fun out =>
      ∃ L', Converging env M L' handed out.1 out.2.1 ∧ out.2.1.length + out.1.waiting ≤ total ∧
        potential M L' total out.2.1 < potential M L total (item :: queue) := by
  obtain ⟨unforced, belongs⟩ := converging.queued item List.mem_cons_self
  have skip : forceItem env fuel turn.clock s item = .ok s := by simp [forceItem, unforced]
  unfold processItem
  refine settles_step skip ?_
  refine settles_bind (receive_one_settles upper converging.consistent converging.below rank top fuel ranked legacy
    converging.agrees turn.clock turn.uninit item.block belongs) ?_
  rintro _ (⟨n, ⟨s', result⟩, stored, accepted⟩ | ⟨result, code, present⟩ | ⟨k, result, code, missing⟩)
  · have plain : item.block.kind ≠ .sendBlockV2 := accepted.carries ▸ legacy _ n stored
    have larger : Below (L.put (item.block.hash env) n) M := by
      intro x m found
      obtain ⟨rfl, rfl⟩ | old := Table.put_some L _ x n m found
      · exact stored
      · exact converging.below x m old
    obtain ⟨cached, got, deleted, _, waiting, next⟩ := take_converging env turn.order M L
      (L.put (item.block.hash env) n) handed s s' item queue
      converging (below_put L _ n accepted.attach.fresh) (by simp) (fun x other absent => (Table.get_put_ne L _ x n other).trans absent)
      (consistent_attach converging.consistent accepted.attach) larger accepted.agrees (accepted.exact converging.exact)
      ((accepted.codes plain).trans converging.codes) accepted.unchecked accepted.cache
    have count : ((cached.map fun block => (⟨block, false⟩ : BlockProcessorItem)).reverse ++ queue).length =
      cached.length + queue.length := by
      simp
    have code : result.code = .progress := accepted.code
    dsimp only
    rw [if_pos (Or.inl code), got, bind_ok, settles_ok, deleted]
    refine ⟨_, next, ?_, ?_⟩
    · simp only [count]
      omega
    · exact potential_grows M L _ n total _ _ accepted.attach.fresh larger (by rw [count]; omega)
  · obtain ⟨cached, got, deleted, missing, waiting, next⟩ := take_converging env turn.order M L L handed s s item queue converging
      (below_refl L) present
      (fun _ _ absent => absent) converging.consistent converging.below converging.agrees converging.exact converging.codes rfl rfl
    -- Nothing waits for a block that is there.
    have none : cached = [] := List.eq_nil_iff_forall_not_mem.mpr fun b member => present (missing b member).2.2.2
    subst none
    dsimp only
    rw [if_pos (Or.inr code), got, bind_ok, settles_ok, deleted]
    refine ⟨L, next, ?_, ?_⟩
    · simp only [List.map_nil, List.reverse_nil, List.nil_append]
      rw [List.length_nil] at waiting
      omega
    · simp only [potential, List.map_nil, List.reverse_nil, List.nil_append, List.length_cons]
      omega
  · dsimp only
    rw [if_neg code, settles_ok]
    refine ⟨L, put_converging env M L handed s item queue k converging missing, ?_, ?_⟩
    · change queue.length + (uncheckedPut s k item.block).waiting ≤ total
      rw [waiting_put]
      omega
    · simp only [potential, List.length_cons]
      omega

theorem transaction_settles (fuel total : Nat) (turn : Turn) (limit : Nat) (L : Lattice) (s : Store) (queue : List BlockProcessorItem)
    (converging : Converging env M L handed s queue) (load : queue.length + s.waiting ≤ total) :
    Settles (processTransaction env fuel turn limit s queue) (Starved (4 * top ≤ fuel)) fun out =>
      ∃ L', Converging env M L' handed out.1 out.2.1 ∧ out.2.1.length + out.1.waiting ≤ total ∧
        potential M L' total out.2.1 ≤ potential M L total queue ∧
        (1 ≤ limit → queue ≠ [] → potential M L' total out.2.1 < potential M L total queue) := by
  induction limit generalizing L s queue with
  | zero =>
      rw [processTransaction, settles_ok]
      exact ⟨L, converging, load, Nat.le_refl _, by omega⟩
  | succ limit ih =>
      cases queue with
      | nil =>
          rw [processTransaction, settles_ok]
          exact ⟨L, converging, load, Nat.le_refl _, fun _ nonempty => absurd rfl nonempty⟩
      | cons item queue =>
          rw [processTransaction]
          rw [List.length_cons] at load
          refine settles_bind (item_settles upper ranked legacy fuel total turn L s item queue converging load) ?_
          rintro ⟨s', queue', done⟩ ⟨L', converging', load', fewer⟩
          refine settles_bind (ih L' s' queue' converging' load') ?_
          rintro ⟨s'', queue'', more⟩ ⟨L'', converging'', load'', less, _⟩
          have drops := Nat.lt_of_le_of_lt less fewer
          rw [settles_ok]
          exact ⟨L'', converging'', load'', Nat.le_of_lt drops, fun _ _ => drops⟩

omit [HashesApart env] upper ranked in
theorem flush_converging (L : Lattice) (s : Store) (queue : List BlockProcessorItem) (converging : Converging env M L handed s queue) :
    ∃ s', storeFlush s = .ok s' ∧ Converging env M L handed s' queue ∧ s'.waiting ≤ s.waiting := by
  have settled := flush_settles (Missing env M L) s converging.files
  cases out : storeFlush s with
  | error stopped =>
      rw [out, settles_error] at settled
      obtain ⟨k, b, ⟨⟨n, stored, rfl⟩, _⟩, long⟩ := settled
      exact absurd (legacy_short n.block (legacy _ n stored)) (Nat.not_le_of_lt long)
  | ok s' =>
      rw [out, settles_ok] at settled
      obtain ⟨table, rfl⟩ := settled.same
      refine ⟨_, rfl, ⟨converging.consistent, converging.below, agrees_unchecked L s _ _ converging.agrees, converging.exact,
        converging.codes, settled.files, converging.queued, ?_⟩, settled.waiting⟩
      intro b member
      simp only [settled.awaits]
      exact converging.covered b member

theorem rounds_settle (fuel total rounds : Nat) (turns : Nat → Turn) (L : Lattice) (s : Store) (queue : List BlockProcessorItem)
    (converging : Converging env M L handed s queue) (load : queue.length + s.waiting ≤ total) :
    Settles (processRounds env fuel rounds turns s queue)
      (Starved ((∀ k, 1 ≤ (turns k).limit) ∧ 4 * top ≤ fuel ∧ potential M L total queue ≤ rounds)) fun out =>
        ∃ L', Converging env M L' handed out.1 [] := by
  induction rounds generalizing turns L s queue with
  | zero =>
      cases queue with
      | nil => exact ⟨L, converging⟩
      | cons item queue =>
          refine ⟨rfl, fun enough => ?_⟩
          have positive := enough.2.2
          simp only [potential, List.length_cons] at positive
          omega
  | succ rounds ih =>
      cases queue with
      | nil => exact ⟨L, converging⟩
      | cons item queue =>
          rw [processRounds]
          have whole := transaction_settles upper ranked legacy fuel total (turns 0) (turns 0).limit L s _ converging load
          refine settles_bind (settles_enough whole fun enough => enough.2.1) ?_
          rintro ⟨s', queue', done⟩ ⟨L', converging', load', _, fewer⟩
          obtain ⟨s'', flushed, converging'', load''⟩ : ∃ s'', flushBetween (turns 0) s' = .ok s'' ∧
              Converging env M L' handed s'' queue' ∧ queue'.length + s''.waiting ≤ total := by
            unfold flushBetween
            split
            · obtain ⟨s'', returned, kept, fewer⟩ := flush_converging legacy L' s' queue' converging'
              exact ⟨s'', returned, kept, by simp only at load'; omega⟩
            · exact ⟨s', rfl, converging', load'⟩
          refine settles_step flushed ?_
          refine settles_bind (settles_enough (ih (fun k => turns (k + 1)) L' s'' queue' converging'' load'') ?_) ?_
          · rintro ⟨limits, covers, rounds⟩
            have less := fewer (limits 0) (by simp)
            simp only at less
            exact ⟨fun k => limits (k + 1), covers, by omega⟩
          · rintro ⟨last, seen⟩ ended
            rw [settles_ok]
            exact ended

theorem many_converging (fuel : Nat) (turns : Nat → Turn) (blocks : List Block) (L : Lattice) (s : Store)
    (converging : Converging env M L handed s []) (belong : ∀ b ∈ blocks, Belongs env M b) :
    Settles (processReceiveMany env fuel turns s (blocks.map fun block => ⟨block, false⟩))
      (Starved ((∀ k, 1 ≤ (turns k).limit) ∧
        4 * top + potential M L (blocks.length + s.waiting) (blocks.map fun block => ⟨block, false⟩) ≤ fuel)) fun out =>
        ∃ L', Converging env M L' (handed ++ blocks) out.1 [] := by
  have queued : Converging env M L (handed ++ blocks) s (blocks.map fun block => ⟨block, false⟩) := by
    refine ⟨converging.consistent, converging.below, converging.agrees, converging.exact, converging.codes, converging.files, ?_, ?_⟩
    · intro item member
      obtain ⟨b, from_, rfl⟩ := List.mem_map.mp member
      exact ⟨rfl, belong b from_⟩
    · intro b member
      obtain older | newer := List.mem_append.mp member
      · obtain present | ⟨_, none, _⟩ | awaits := converging.covered b older
        · exact Or.inl present
        · cases none
        · exact Or.inr (Or.inr awaits)
      · exact Or.inr (Or.inl ⟨⟨b, false⟩, List.mem_map_of_mem newer, rfl⟩)
  have settled := rounds_settle upper ranked legacy fuel (blocks.length + s.waiting) fuel turns L s _ queued (by simp)
  exact settles_enough settled fun enough => ⟨enough.1, by omega, by omega⟩

theorem delivered_converging (issued : M.get (genesisHash env) = some (genesisNote env (genesisStamp env.network))) (s : Store)
    (delivered : Delivered env handed s) (belong : ∀ b ∈ handed, Belongs env M b) : ∃ L, Converging env M L handed s [] := by
  induction delivered with
  | genesis now s started =>
      have plain := genesis_started started
      have files := fun P => files_none P s plain.unchecked plain.cache
      refine ⟨genesisLattice env _, consistent_genesis env _, ?_, plain.agrees, plain.exact, plain.codes, files _, by simp, by simp⟩
      intro h n stored
      obtain ⟨rfl, rfl⟩ := genesis_stored _ stored
      exact issued
  | receive fuel turns handed blocks s out _ returned ih =>
      obtain ⟨L, converging⟩ := ih fun b member => belong b (List.mem_append_left _ member)
      have settled := many_converging upper ranked legacy fuel turns blocks L s converging
        fun b member => belong b (List.mem_append_right _ member)
      rwa [returned, settles_ok] at settled
  | flush handed s s' _ returned ih =>
      obtain ⟨L, converging⟩ := ih belong
      obtain ⟨s'', flushed, kept, _⟩ := flush_converging legacy L s [] converging
      rw [returned] at flushed
      cases flushed
      exact ⟨L, kept⟩

omit [HashesApart env] ranked legacy in
-- When every block of `M` has come, nothing can be missing: what waits would wait for something
-- of lower rank that waits in turn.
theorem converged (L : Lattice) (s : Store) (converging : Converging env M L handed s [])
    (all : ∀ h n, M.get h = some n → h ≠ genesisHash env → n.block ∈ handed) : L = M := by
  obtain ⟨rank, drops⟩ := upper.ranked
  have arrived : ∀ level h n, rank h = level → M.get h = some n → L.get h = some n := by
    intro level
    induction level using Nat.strongRecOn with
    | ind level ih =>
        intro h n levelEq stored
        by_cases atGenesis : h = genesisHash env
        · subst atGenesis
          exact kept_below L M _ n converging.below stored (genesis_present converging.consistent)
        · obtain present | ⟨_, none, _⟩ | ⟨k, awaits⟩ := converging.covered n.block (all h n stored atGenesis)
          · rw [upper.hashed h n stored] at present
            exact kept_below L M h n converging.below stored present
          · cases none
          · obtain ⟨_, named, exists_, absent⟩ := files_awaits _ s converging.files k n.block awaits
            obtain ⟨m, found⟩ := Option.ne_none_iff_exists'.mp exists_
            have lower := drops h k ⟨n, stored, named, exists_⟩
            rw [ih (rank k) (levelEq ▸ lower) k m rfl found] at absent
            cases absent
  apply Table.ext_get
  intro h
  cases stored : M.get h with
  | some n => exact arrived _ h n rfl stored
  | none =>
      by_contra present
      obtain ⟨n, found⟩ := Option.ne_none_iff_exists'.mp present
      rw [converging.below h n found] at stored
      cases stored

end Rounds

theorem files_nothing (P : Hash → Block → Prop) (s : Store) (files : Files P s) (never : ∀ k b, ¬ P k b) :
    s.uncheckedCache = [] ∧ s.unchecked = .empty := by
  constructor
  · exact List.eq_nil_iff_forall_not_mem.mpr fun entry member => never entry.1 entry.2 (files.cached _ _ member)
  · apply Table.ext_get
    intro k
    rw [Table.get_empty]
    by_contra present
    obtain ⟨values, found⟩ := Option.ne_none_iff_exists'.mp present
    obtain ⟨nonempty, all⟩ := files.tabled k values found
    obtain ⟨value, member⟩ := List.exists_mem_of_ne_nil values nonempty
    obtain ⟨b, _, _, holds⟩ := all value member
    exact never k b holds

-- Blocks that can be processed in some order may arrive in any order, any number of times and in any
-- batches: every batch is worked off, and when all have come the ledger is the one of that order.
theorem out_of_order_converges (env : Env) (apart : HashesApart env) (order : List Block) (t : Store)
    (legacy : ∀ b ∈ order, b.kind ≠ .sendBlockV2) (replay : Replay env order t) (handed : List Block) (s : Store)
    (within : ∀ b ∈ handed, b ∈ order) (delivered : Delivered env handed s) :
    (∀ (blocks : List Block) (turns : Nat → Turn), (∀ b ∈ blocks, b ∈ order) → (∀ k, 1 ≤ (turns k).limit) →
      Returns fun fuel => processReceiveMany env fuel turns s (blocks.map fun block => ⟨block, false⟩)) ∧
    (∃ s', storeFlush s = .ok s') ∧
    ((∀ b ∈ order, b ∈ handed) → (∀ b ∈ order, blockGet s (b.hash env) = .ok (some b)) ∧ SameTables s t ∧
      s.representation = t.representation ∧ s.uncheckedCache = [] ∧ s.unchecked = .empty) := by
  obtain ⟨M, built, plain⟩ := replay_builds order t legacy replay
  have upper := builds_consistent built
  have contractless := builds_legacy built legacy
  obtain ⟨rank, top, ranked⟩ := exists_ranked upper
  have belong : ∀ b ∈ order, Belongs env M b := fun b member =>
    Option.map_eq_some_iff.mp ((builds_blocks built (b.hash env) b).mpr (Or.inr ⟨member, rfl⟩))
  have issued := builds_genesis order M built
  obtain ⟨L, converging⟩ := delivered_converging upper ranked contractless issued s delivered fun b member =>
    belong b (within b member)
  refine ⟨?_, ?_, ?_⟩
  · intro blocks turns some_ limits
    exact returns_settled (fun fuel => many_converging upper ranked contractless fuel turns blocks L s converging
      fun b member => belong b (some_ b member)) limits
  · obtain ⟨s', flushed, _⟩ := flush_converging contractless L s [] converging
    exact ⟨s', flushed⟩
  · intro all
    have same := converged upper L s converging fun h n stored later => by
      obtain ⟨atGenesis, _⟩ | ⟨member, _⟩ := (builds_blocks built h n.block).mp (by rw [stored, Option.map_some])
      · exact absurd atGenesis later
      · exact all _ member
    subst same
    obtain ⟨cache, table⟩ := files_nothing _ s converging.files fun k b missing => missing.2.2.1 missing.2.2.2
    have holds : Plain L s := ⟨⟨converging.agrees, table, cache, converging.codes⟩, converging.exact⟩
    refine ⟨?_, becomes_same holds.toBecomes plain.toBecomes, exact_same L s t holds plain, cache, table⟩
    intro b member
    obtain ⟨n, stored, rfl⟩ := belong b member
    exact get_legacy converging.agrees.blocks _ n stored (legacy _ member)

-- The sample blocks last to first, one of them twice, each in a transaction of its own with a flush after it.
theorem out_of_order_converges_sample :
    ∃ s t, Replay sampleEnv sampleLog t ∧ Delivered sampleEnv (sampleLog.reverse ++ [sampleOpen]) s ∧
    SameTables s t ∧ s.representation = t.representation ∧ s.uncheckedCache = [] := by
  let turns : Nat → Turn := fun _ => ⟨1, true, fun _ => 0, ⟨.progress, 0, 0, 0⟩, insertionOrder⟩
  let blocks := sampleLog.reverse ++ [sampleOpen]
  have within : ∀ b ∈ blocks, b ∈ sampleLog := by simp [blocks, sampleLog]
  obtain ⟨t, replay⟩ := sample_replayed
  obtain ⟨start, started, _⟩ := genesis_initial sampleEnv 0
  have first := Delivered.genesis 0 start started
  obtain ⟨bound, returns⟩ := (out_of_order_converges sampleEnv sample_apart sampleLog t (by decide) replay [] start (by simp) first).1
    blocks turns within fun _ => Nat.le_refl 1
  obtain ⟨out, returned⟩ := returns bound (Nat.le_refl bound)
  have second := Delivered.receive bound turns [] blocks start out first returned
  obtain ⟨_, _, ends⟩ := out_of_order_converges sampleEnv sample_apart sampleLog t (by decide) replay blocks out.1 within second
  obtain ⟨_, same, weights, cache, _⟩ := ends fun b member => List.mem_append_left _ (List.mem_reverse.mpr member)
  exact ⟨out.1, t, replay, second, same, weights, cache⟩

end Rai
