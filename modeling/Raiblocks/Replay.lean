import Raiblocks.Reachable

set_option autoImplicit false

namespace Rai

open Kit

inductive Builds (env : Env) : List Block → Lattice → Prop where
  | genesis : Builds env [] (genesisLattice env (genesisStamp env.network))
  | grow (log : List Block) (K : Lattice) (h : Hash) (n : Note) (built : Builds env log K) (attach : Attach env K h n) :
      Builds env (log ++ [n.block]) (K.put h n)

section Builds

variable {env : Env}

theorem builds_consistent [HashesApart env] {log : List Block} {L : Lattice} (built : Builds env log L) : Consistent env L := by
  induction built with
  | genesis => exact consistent_genesis env _
  | grow log K h n _ attach ih => exact consistent_attach ih attach

theorem builds_genesis (log : List Block) (L : Lattice) (built : Builds env log L) :
    L.get (genesisHash env) = some (genesisNote env (genesisStamp env.network)) := by
  induction built with
  | genesis => exact Table.get_put_self _ _ _
  | grow log K h n _ attach ih => exact below_put K h n attach.fresh _ _ ih

theorem builds_blocks {log : List Block} {L : Lattice} (built : Builds env log L) (h : Hash) (block : Block) :
    (L.get h).map Note.block = some block ↔
      h = genesisHash env ∧ block = genesisOpen env.network ∨ block ∈ log ∧ block.hash env = h := by
  induction built with
  | genesis =>
      rw [genesisLattice, Table.get_put, Table.get_empty]
      by_cases here : h = genesisHash env
      · simp [here, genesisNote, genesisStamp, genesisOpen, eq_comm]
      · simp [here]
  | grow log K x n _ attach ih =>
      rw [Table.get_put, List.mem_append, List.mem_singleton]
      by_cases here : h = x
      · rw [if_pos here, Option.map_some, Option.some.injEq]
        have fresh : (K.get h).map Note.block = none := by rw [here, attach.fresh, Option.map_none]
        constructor
        · rintro rfl
          exact Or.inr ⟨Or.inr rfl, attach.hashed.trans here.symm⟩
        · rintro (⟨atGenesis, issued⟩ | ⟨member | same, hashed⟩)
          · rw [ih.mpr (Or.inl ⟨atGenesis, issued⟩)] at fresh
            cases fresh
          · rw [ih.mpr (Or.inr ⟨member, hashed⟩)] at fresh
            cases fresh
          · exact same.symm
      · rw [if_neg here, ih]
        constructor
        · rintro (issued | ⟨member, hashed⟩)
          · exact Or.inl issued
          · exact Or.inr ⟨Or.inl member, hashed⟩
        · rintro (issued | ⟨member | same, hashed⟩)
          · exact Or.inl issued
          · exact Or.inr ⟨member, hashed⟩
          · rw [same, attach.hashed] at hashed
            exact absurd hashed.symm here

theorem builds_unique [HashesApart env] (log log' : List Block) (L L' : Lattice) (built : Builds env log L)
    (built' : Builds env log' L') (same : ∀ block, block ∈ log ↔ block ∈ log') : L = L' := by
  apply lattice_unique env L L' (builds_consistent built) (builds_consistent built')
  intro h
  apply Option.ext
  intro block
  rw [builds_blocks built, builds_blocks built', same]

theorem builds_fresh (log : List Block) (L : Lattice) (built : Builds env log L) (block : Block) (member : block ∈ log) :
    L.get (block.hash env) ≠ none := by
  have found := (builds_blocks built (block.hash env) block).mpr (Or.inr ⟨member, rfl⟩)
  intro absent
  rw [absent] at found
  cases found

theorem below_genesis (L : Lattice) (stamp : Signature × Work) (consistent : Consistent env L)
    (below : Below L (genesisLattice env stamp)) :
    L = genesisLattice env stamp := by
  apply Table.ext_get
  intro x
  cases found : L.get x with
  | some n => rw [below x n found]
  | none =>
      rw [genesisLattice, Table.get_put, Table.get_empty]
      split
      · next here => exact absurd (here ▸ found) (genesis_present consistent)
      · rfl

theorem builds_prune [HashesApart env] (log : List Block) (M L : Lattice) (built : Builds env log M) (consistent : Consistent env L)
    (below : Below L M) :
    Builds env (log.filter fun block => (L.get (block.hash env)).isSome) L := by
  induction built generalizing L with
  | genesis =>
      rw [below_genesis L _ consistent below]
      exact Builds.genesis
  | grow log K h n built attach ih =>
      have base := builds_consistent built
      have older : ∀ block, block ∈ log → block.hash env ≠ h := fun block member same =>
        builds_fresh log K built block member (same ▸ attach.fresh)
      rw [List.filter_append]
      cases found : L.get h with
      | none =>
          have last : [n.block].filter (fun block => (L.get (block.hash env)).isSome) = [] := by
            simp [attach.hashed, found]
          rw [last, List.append_nil]
          exact ih L consistent (below_without L K h n below found)
      | some m =>
          have carried := below h m found
          rw [Table.get_put_self] at carried
          cases carried
          have later : h ≠ genesisHash env := by
            rintro rfl
            exact genesis_present base attach.fresh
          -- Nothing that came earlier names the last block, so it can be set aside and put back.
          have unnamed : ∀ x m, L.get x = some m → m.block.previous ≠ h ∧ m.block.source ≠ h := by
            intro x m stored
            have above := below x m stored
            obtain ⟨_, rfl⟩ | old := Table.put_some _ h x n m above
            · exact ⟨attach_previous_ne attach, attach_source_ne attach⟩
            · exact attach_unnamed base attach x m old
          have rest := consistent_del consistent later unnamed
          have lower := below_without (L.del h) K h n (below_trans _ _ _ (below_del L h) below) (Table.get_del_self L h)
          have kept : log.filter (fun block => ((L.del h).get (block.hash env)).isSome) =
              log.filter fun block => (L.get (block.hash env)).isSome := by
            apply List.filter_congr
            intro block member
            rw [Table.get_del_ne L h _ (older block member)]
          have last : [n.block].filter (fun block => (L.get (block.hash env)).isSome) = [n.block] := by
            simp [attach.hashed, found]
          have grown := Builds.grow _ _ h n (ih (L.del h) rest lower) (attach_del consistent found later unnamed)
          rw [kept, Table.put_del_self _ _ _ found] at grown
          rw [last]
          exact grown

end Builds

inductive Replay (env : Env) : List Block → Store → Prop where
  | genesis (now : Nat) (s : Store) (started : genesisInitialize env Store.fresh now = .ok s) : Replay env [] s
  | process (fuel : Nat) (clock : Hash → Nat) (uninit : ProcessReturn) (log : List Block) (s : Store) (block : Block)
      (out : Store × ProcessReturn) (replayed : Replay env log s) (returned : ledgerProcess env fuel clock uninit s block = .ok out)
      (progress : out.2.code = .progress) : Replay env (log ++ [block]) out.1

-- The tables of two stores hold the same, up to the times of modification. The weights are left to the reader of this.
structure SameTables (s t : Store) : Prop where
  frontiers : s.frontiers = t.frontiers
  accounts : ∀ account, (s.accounts.get account).map AccountInfo.timeless = (t.accounts.get account).map AccountInfo.timeless
  vmCodes : s.vmCodes = t.vmCodes
  blocks : s.blocks = t.blocks
  pending : s.pending = t.pending
  blocksInfo : s.blocksInfo = t.blocksInfo
  checksum : s.checksum = t.checksum
  unchecked : s.unchecked = t.unchecked
  uncheckedCache : s.uncheckedCache = t.uncheckedCache

theorem becomes_same {L : Lattice} {s t base : Store} (left : Becomes L base s) (right : Becomes L base t) : SameTables s t := by
  have one := left.agrees
  have two := right.agrees
  refine ⟨?_, ?_, left.codes.trans right.codes.symm, ?_, ?_, ?_, one.checksum.trans two.checksum.symm,
    left.unchecked.trans right.unchecked.symm, left.cache.trans right.cache.symm⟩
  · exact Table.ext_get _ _ fun x => (one.frontiers x).trans (two.frontiers x).symm
  · exact fun account => (one.accounts account).trans (two.accounts account).symm
  · exact funext fun kind => Table.ext_get _ _ fun x => (one.blocks kind x).trans (two.blocks kind x).symm
  · exact Table.ext_get _ _ fun key => (one.pending key).trans (two.pending key).symm
  · exact Table.ext_get _ _ fun x => (one.checkpoints x).trans (two.checkpoints x).symm

theorem exact_same (L : Lattice) (s t : Store) (left : Plain L s) (right : Plain L t) : s.representation = t.representation := by
  apply Table.ext_get
  intro r
  have weight := (left.agrees.weights r).trans (right.agrees.weights r).symm
  have entry := (left.exact r).trans (right.exact r).symm
  unfold representationGet at weight
  cases found : s.representation.get r with
  | none =>
      have absent : t.representation.get r = none := by
        by_contra present
        exact entry.mpr present found
      rw [absent]
  | some value =>
      obtain ⟨value', found'⟩ := Option.ne_none_iff_exists'.mp (entry.mp (by simp [found]))
      rw [found, found'] at weight
      rw [found']
      exact congrArg some weight

theorem refused_code (env : Env) (L : Lattice) (block : Block) (code : ProcessResult) (refused : Refused env L block code) :
    code ≠ .progress := by
  cases refused <;> exact ProcessResult.noConfusion

section Replays

variable {env : Env}

theorem processed_progress [HashesApart env] {L : Lattice} {s : Store} {fuel : Nat} (clock : Hash → Nat)
    {uninit : ProcessReturn} {block : Block} (out : Store × ProcessReturn) (consistent : Consistent env L) (agrees : Agrees L s)
    (returned : ledgerProcess env fuel clock uninit s block = .ok out) (progress : out.2.code = .progress) :
    ∃ n, Accepted env L s block n out := by
  obtain accepted | ⟨_, refused⟩ := process_returned clock out consistent agrees returned
  · exact accepted
  · exact absurd progress (refused_code env L block _ refused)

theorem builds_legacy {log : List Block} {L : Lattice} (built : Builds env log L) (legacy : ∀ block ∈ log, block.kind ≠ .sendBlockV2) :
    Legacy L := by
  intro h n stored
  obtain ⟨_, issued⟩ | ⟨member, _⟩ := (builds_blocks built h n.block).mp (by rw [stored, Option.map_some])
  · rw [issued]
    exact Kind.noConfusion
  · exact legacy _ member

theorem becomes_accepted (L : Lattice) (s base : Store) (block : Block) (n : Note) (out : Store × ProcessReturn)
    (becomes : Becomes L base s) (legacy : block.kind ≠ .sendBlockV2) (accepted : Accepted env L s block n out) :
    Becomes (L.put (block.hash env) n) base out.1 :=
  ⟨accepted.agrees, accepted.unchecked.trans becomes.unchecked, accepted.cache.trans becomes.cache,
    (accepted.codes legacy).trans becomes.codes⟩

theorem plain_accepted (L : Lattice) (s : Store) (block : Block) (n : Note) (out : Store × ProcessReturn) (plain : Plain L s)
    (legacy : block.kind ≠ .sendBlockV2) (accepted : Accepted env L s block n out) : Plain (L.put (block.hash env) n) out.1 :=
  ⟨becomes_accepted L s Store.fresh block n out plain.toBecomes legacy accepted, accepted.exact plain.exact⟩

-- A store is a replay of a log exactly if it holds the lattice the log builds:
theorem replay_builds [HashesApart env] (log : List Block) (s : Store) (legacy : ∀ block ∈ log, block.kind ≠ .sendBlockV2)
    (replay : Replay env log s) :
    ∃ L, Builds env log L ∧ Plain L s := by
  induction replay with
  | genesis now s started => exact ⟨_, Builds.genesis, genesis_started started⟩
  | process fuel clock uninit log s block out _ returned progress ih =>
      obtain ⟨L, built, plain⟩ := ih fun b member => legacy b (List.mem_append_left _ member)
      have consistent := builds_consistent built
      obtain ⟨n, accepted⟩ := processed_progress clock out consistent plain.agrees returned progress
      have grown := Builds.grow log L _ n built accepted.attach
      rw [accepted.carries] at grown
      exact ⟨_, grown, plain_accepted L s block n out plain (legacy block (by simp)) accepted⟩

theorem replay_stored [HashesApart env] (log : List Block) (s : Store) (legacy : ∀ block ∈ log, block.kind ≠ .sendBlockV2)
    (replay : Replay env log s) (block : Block) (member : block ∈ log) : blockExists s (block.hash env) = true := by
  obtain ⟨L, built, plain⟩ := replay_builds log s legacy replay
  exact (exists_iff plain.agrees.blocks _).mpr (builds_fresh log L built block member)

-- every log that builds a lattice can be replayed,
theorem builds_replay [HashesApart env] (log : List Block) (L : Lattice) (legacy : ∀ block ∈ log, block.kind ≠ .sendBlockV2)
    (built : Builds env log L) :
    ∃ s, Replay env log s ∧ Plain L s := by
  induction built with
  | genesis =>
      obtain ⟨s, started, plain⟩ := genesis_initial env 0
      exact ⟨s, Replay.genesis 0 s started, plain⟩
  | grow log K h n built attach ih =>
      have older : ∀ block ∈ log, block.kind ≠ .sendBlockV2 := fun b member => legacy b (List.mem_append_left _ member)
      obtain ⟨s, replay, plain⟩ := ih older
      have consistent := builds_consistent built
      obtain ⟨rank, top, ranked⟩ := exists_ranked consistent
      cases attach.hashed
      obtain ⟨out, returned, accepted⟩ := process_attaches consistent plain.agrees (fun _ => 0) ⟨.progress, 0, 0, 0⟩ (4 * top) n
        ranked (builds_legacy built older) (Nat.le_refl _) attach (legacy_loads env _ n.block (legacy _ (by simp)))
      exact ⟨out.1, Replay.process _ _ _ log s n.block out replay returned accepted.code,
        plain_accepted K s n.block n out plain (legacy _ (by simp)) accepted⟩

-- and two logs of the same blocks, in whatever order, give the same store.
theorem replay_order_free (apart : HashesApart env) (log log' : List Block) (s t : Store)
    (legacy : ∀ block ∈ log, block.kind ≠ .sendBlockV2) (order : log.Perm log') (left : Replay env log s) (right : Replay env log' t) :
    SameTables s t ∧ s.representation = t.representation := by
  obtain ⟨L, built, plain⟩ := replay_builds log s legacy left
  obtain ⟨L', built', plain'⟩ := replay_builds log' t (fun b member => legacy b (order.mem_iff.mpr member)) right
  have same := builds_unique log log' L L' built built' fun block => order.mem_iff
  subst same
  exact ⟨becomes_same plain.toBecomes plain'.toBecomes, exact_same L s t plain plain'⟩

end Replays

theorem replay_reachable {env : Env} {log : List Block} {s : Store} (replay : Replay env log s) : Reachable env s := by
  induction replay with
  | genesis now s started => exact Reachable.genesis now s started
  | process fuel clock uninit log s block out _ returned _ ih => exact Reachable.process fuel clock uninit s block out ih returned

theorem replay_last (env : Env) (log : List Block) (block : Block) (t : Store) (replay : Replay env (log ++ [block]) t) :
    ∃ fuel clock uninit s out, Replay env log s ∧ ledgerProcess env fuel clock uninit s block = .ok out ∧
      out.2.code = .progress ∧ out.1 = t := by
  generalize whole : log ++ [block] = longer at replay
  cases replay with
  | genesis now s started => exact absurd whole (by simp)
  | process fuel clock uninit older s last out replayed returned progress =>
      obtain ⟨rfl, rfl⟩ := List.append_singleton_inj.mp whole
      exact ⟨fuel, clock, uninit, s, out, replayed, returned, progress, rfl⟩

def processAll (env : Env) (fuel : Nat) (s : Store) : List Block → Option Store
  | [] => some s
  | block :: rest =>
      match ledgerProcess env fuel (fun _ => 0) ⟨.progress, 0, 0, 0⟩ s block with
      | .ok out => if out.2.code = .progress then processAll env fuel out.1 rest else none
      | .error _ => none

def replayAll (env : Env) (fuel : Nat) (log : List Block) : Option Store :=
  match genesisInitialize env Store.fresh 0 with
  | .ok s => processAll env fuel s log
  | .error _ => none

theorem process_all_replays (env : Env) (fuel : Nat) (log blocks : List Block) (s t : Store) (replay : Replay env log s)
    (ran : processAll env fuel s blocks = some t) : Replay env (log ++ blocks) t := by
  induction blocks generalizing log s with
  | nil =>
      cases ran
      rwa [List.append_nil]
  | cons block rest ih =>
      unfold processAll at ran
      split at ran
      · next out returned =>
          split at ran
          · next progress =>
              rw [List.append_cons]
              exact ih (log ++ [block]) out.1 (Replay.process fuel _ _ log s block out replay returned progress) ran
          · cases ran
      · cases ran

theorem replay_all_replays (env : Env) (fuel : Nat) (log : List Block) (ran : (replayAll env fuel log).isSome = true) :
    ∃ s, replayAll env fuel log = some s ∧ Replay env log s := by
  obtain ⟨t, run⟩ := Option.isSome_iff_exists.mp ran
  refine ⟨t, run, ?_⟩
  unfold replayAll at run
  split at run
  · next s started => exact process_all_replays env fuel [] log s t (Replay.genesis 0 s started) run
  · cases run

theorem replay_checked (env : Env) (fuel : Nat) (log : List Block) (p : Store → Prop) [DecidablePred p]
    (computed : (replayAll env fuel log).any (fun s => decide (p s)) = true) :
    ∃ s, replayAll env fuel log = some s ∧ Replay env log s ∧ p s := by
  obtain ⟨s, run, checked⟩ := (Option.any_eq_true _ _).mp computed
  obtain ⟨t, same, replay⟩ := replay_all_replays env fuel log (by rw [run]; rfl)
  obtain rfl := Option.some.inj (run.symm.trans same)
  exact ⟨s, run, replay, of_decide_eq_true checked⟩

-- Genesis sends to two new accounts, which open; the second then changes its representative.
def sampleKey (index : Nat) : Account := BitVec.ofNat 256 (2 ^ 32 + index)

def sampleSend : Block := ⟨.sendBlock (genesisHash sampleEnv) (sampleKey 1) 5, 0, 0⟩

def sampleSendMore : Block := ⟨.sendBlock (sampleSend.hash sampleEnv) (sampleKey 2) 3, 0, 0⟩

def sampleOpen : Block := ⟨.openBlock (sampleSend.hash sampleEnv) (sampleKey 3) (sampleKey 1), 0, 0⟩

def sampleOpenMore : Block := ⟨.openBlock (sampleSendMore.hash sampleEnv) (sampleKey 3) (sampleKey 2), 0, 0⟩

def sampleChange : Block := ⟨.changeBlock (sampleOpenMore.hash sampleEnv) (sampleKey 4), 0, 0⟩

def sampleLog : List Block := [sampleSend, sampleOpen, sampleSendMore, sampleOpenMore, sampleChange]

theorem sample_replayed : ∃ s, Replay sampleEnv sampleLog s := by
  obtain ⟨s, _, replay⟩ := replay_all_replays sampleEnv 20 sampleLog (by decide +kernel)
  exact ⟨s, replay⟩

theorem replay_order_free_sample : ∃ s t, Replay sampleEnv sampleLog s ∧
    Replay sampleEnv [sampleSend, sampleSendMore, sampleOpenMore, sampleChange, sampleOpen] t ∧
    SameTables s t ∧ s.representation = t.representation := by
  obtain ⟨s, left⟩ := sample_replayed
  obtain ⟨t, _, right⟩ := replay_all_replays sampleEnv 20
    [sampleSend, sampleSendMore, sampleOpenMore, sampleChange, sampleOpen] (by decide +kernel)
  refine ⟨s, t, left, right, replay_order_free sample_apart _ _ s t ?_ ?_ left right⟩
  · decide
  · decide +kernel

end Rai
