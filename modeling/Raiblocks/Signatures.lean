import Raiblocks.Chains
import Raiblocks.Convergence
import Raiblocks.Copies

set_option autoImplicit false

namespace Rai

open Kit

def Outworks (env : Env) (a b : Block) : Prop := a.hash env = b.hash env ∧ workValue env b.root a.work < workValue env b.root b.work

structure Faithful (env : Env) (handed : List Block) : Prop where
  fits : ∀ b ∈ handed, b.Fits
  copies : ∀ a ∈ genesisOpen env.network :: handed, ∀ b ∈ handed, Outworks env a b → b.hashables = a.hashables ∧
    ∀ account, env.validateMessage account (a.hash env) a.signature = false → env.validateMessage account
    (a.hash env) b.signature = false

structure Guarded (env : Env) (handed : List Block) (L : Lattice) (s : Store) : Prop where
  consistent : Consistent env L
  agrees : Agrees L s
  stored : ∀ h n, L.get h = some n → n.block ∈ genesisOpen env.network :: handed
  signed : ∀ h n, L.get h = some n → env.validateMessage n.account h n.block.signature = false
  files : Files (fun _ b => b ∈ handed) s

def Queued (handed : List Block) (queue : List BlockProcessorItem) : Prop := ∀ item ∈ queue, item.force = false ∧ item.block ∈ handed

section Guarding

variable {env : Env} {handed : List Block} [HashesApart env] (faithful : Faithful env handed)
include faithful

omit [HashesApart env] in
theorem guarded_fits (L : Lattice) (s : Store) (guarded : Guarded env handed L s) (h : Hash) (n : Note) (stored : L.get h = some n) :
    n.block.Fits := by
  obtain issued | member := List.mem_cons.mp (guarded.stored h n stored)
  · rw [issued]
    trivial
  · exact faithful.fits _ member

theorem copy_guarded (L : Lattice) (s : Store) (b : Block) (n : Note) (guarded : Guarded env handed L s) (member : b ∈ handed)
    (stored : L.get (b.hash env) = some n) (more : workValue env b.root n.block.work < workValue env b.root b.work) :
    ∃ blocks, blockPut env s (b.hash env) b (L.succ (b.hash env)) = .ok { s with blocks := blocks } ∧
      Guarded env handed (L.put (b.hash env) { n with block := b }) { s with blocks := blocks } := by
  have outworks : Outworks env n.block b := ⟨guarded.consistent.hashed _ n stored, more⟩
  obtain ⟨content, good⟩ := faithful.copies n.block (guarded.stored _ n stored) b member outworks
  have signed := good n.account (outworks.1 ▸ guarded.signed _ n stored)
  rw [outworks.1] at signed
  obtain ⟨blocks, put, agrees⟩ := copy_agrees guarded.consistent _ n b stored content guarded.agrees
  refine ⟨blocks, put, consistent_copy guarded.consistent _ n b stored content signed, agrees, ?_, ?_, ?_⟩
  · intro h m found
    obtain ⟨_, rfl⟩ | old := Table.put_some L _ h _ m found
    · exact List.mem_cons_of_mem _ member
    · exact guarded.stored h m old
  · intro h m found
    obtain ⟨rfl, rfl⟩ | old := Table.put_some L _ h _ m found
    · exact signed
    · exact guarded.signed h m old
  · exact ⟨guarded.files.cached, guarded.files.tabled⟩

theorem receive_one_guarded (fuel : Nat) (clock : Hash → Nat) (uninit : ProcessReturn) (L : Lattice) (s : Store) (b : Block)
    (guarded : Guarded env handed L s) (member : b ∈ handed) :
    Settles (processReceiveOne env fuel clock uninit s b) (fun _ => True) fun out => ∃ L', Guarded env handed L' out.1 := by
  obtain ⟨rank, top, ranked⟩ := exists_ranked guarded.consistent
  have settled := ledger_process_settles guarded.consistent guarded.agrees clock uninit fuel b ranked
  refine settles_bind (settles_mono settled (fun _ _ => trivial) fun _ => id) ?_
  rintro ⟨s', result⟩ (⟨n, accepted⟩ | ⟨same, refused⟩)
  · have code : result.code = .progress := accepted.code
    simp only [code, settles_ok]
    refine ⟨_, consistent_attach guarded.consistent accepted.attach, accepted.agrees, ?_, ?_, ?_⟩
    · intro h m found
      obtain ⟨_, rfl⟩ | old := Table.put_some L _ h n m found
      · exact List.mem_cons_of_mem _ (accepted.carries ▸ member)
      · exact guarded.stored h m old
    · intro h m found
      obtain ⟨rfl, rfl⟩ | old := Table.put_some L _ h n m found
      · exact accepted.attach.signed
      · exact guarded.signed h m old
    · exact files_congr s s' accepted.unchecked accepted.cache _ guarded.files
  · have same : s' = s := same
    have refused : Refused env L b result.code := refused
    have waits : ∀ k, Guarded env handed L (uncheckedPut s k b) := fun k =>
      ⟨guarded.consistent, agrees_unchecked L s _ _ guarded.agrees, guarded.stored, guarded.signed,
        files_put _ s k b guarded.files member⟩
    rw [same]
    dsimp only
    split
    · exact ⟨L, waits _⟩
    · exact ⟨L, waits _⟩
    · next code =>
        rw [code] at refused
        obtain ⟨present⟩ := refused
        obtain ⟨n, stored⟩ := Option.ne_none_iff_exists'.mp present
        refine settles_step (get_fits guarded.agrees.blocks _ n stored (guarded_fits faithful L s guarded _ n stored)) ?_
        dsimp only
        split
        · next more =>
            obtain ⟨blocks, put, copied⟩ := copy_guarded faithful L s b n guarded member stored more
            rw [successor_stored guarded.agrees.blocks _ n stored, bind_ok, put, bind_ok, settles_ok]
            exact ⟨L.put (b.hash env) { n with block := b }, copied⟩
        · exact ⟨L, guarded⟩
    · exact ⟨L, guarded⟩

theorem item_guarded (fuel : Nat) (turn : Turn) (L : Lattice) (s : Store) (item : BlockProcessorItem) (queue : List BlockProcessorItem)
    (guarded : Guarded env handed L s) (queued : Queued handed (item :: queue)) :
    Settles (processItem env fuel turn s item queue) (fun _ => True) fun out =>
      (∃ L', Guarded env handed L' out.1) ∧ Queued handed out.2.1 := by
  obtain ⟨unforced, member⟩ := queued item List.mem_cons_self
  have rest : Queued handed queue := fun other within => queued other (List.mem_cons_of_mem _ within)
  have skip : forceItem env fuel turn.clock s item = .ok s := by simp [forceItem, unforced]
  unfold processItem
  refine settles_step skip ?_
  refine settles_bind (receive_one_guarded faithful fuel turn.clock turn.uninit L s item.block guarded member) ?_
  rintro ⟨s', result⟩ ⟨L', guarded'⟩
  dsimp only
  split
  · obtain ⟨cached, got, deleted, _, waited, _⟩ := take_spec _ turn.order s' (item.block.hash env) guarded'.files
    rw [got, bind_ok, settles_ok, deleted]
    refine ⟨⟨L', guarded'.consistent, agrees_unchecked L' s' _ _ guarded'.agrees, guarded'.stored, guarded'.signed, ?_⟩, ?_⟩
    · exact files_mono _ _ _ (files_take _ s' _ guarded'.files) fun _ _ holds => holds.1
    · intro other within
      obtain back | within := List.mem_append.mp within
      · obtain ⟨b, found, rfl⟩ := List.mem_map.mp (List.mem_reverse.mp back)
        exact ⟨rfl, waited b found⟩
      · exact rest other within
  · exact ⟨⟨L', guarded'⟩, rest⟩

theorem transaction_guarded (fuel : Nat) (turn : Turn) (limit : Nat) (L : Lattice) (s : Store) (queue : List BlockProcessorItem)
    (guarded : Guarded env handed L s) (queued : Queued handed queue) :
    Settles (processTransaction env fuel turn limit s queue) (fun _ => True) fun out =>
      (∃ L', Guarded env handed L' out.1) ∧ Queued handed out.2.1 := by
  induction limit generalizing L s queue with
  | zero => exact ⟨⟨L, guarded⟩, queued⟩
  | succ limit ih =>
      cases queue with
      | nil => exact ⟨⟨L, guarded⟩, queued⟩
      | cons item queue =>
          rw [processTransaction]
          refine settles_bind (item_guarded faithful fuel turn L s item queue guarded queued) ?_
          rintro ⟨s', queue', done⟩ ⟨⟨L', guarded'⟩, queued'⟩
          refine settles_bind (ih L' s' queue' guarded' queued') ?_
          rintro ⟨s'', queue'', more⟩ ended
          rw [settles_ok]
          exact ended

omit [HashesApart env] faithful in
theorem flush_guarded (L : Lattice) (s : Store) (guarded : Guarded env handed L s) :
    Settles (storeFlush s) (fun _ => True) (Guarded env handed L) := by
  refine settles_mono (flush_settles _ s guarded.files) (fun _ _ => trivial) fun s' flushed => ?_
  obtain ⟨table, rfl⟩ := flushed.same
  exact ⟨guarded.consistent, agrees_unchecked L s _ _ guarded.agrees, guarded.stored, guarded.signed, flushed.files⟩

theorem rounds_guarded (fuel rounds : Nat) (turns : Nat → Turn) (L : Lattice) (s : Store) (queue : List BlockProcessorItem)
    (guarded : Guarded env handed L s) (queued : Queued handed queue) :
    Settles (processRounds env fuel rounds turns s queue) (fun _ => True) fun out => ∃ L', Guarded env handed L' out.1 := by
  induction rounds generalizing turns L s queue with
  | zero =>
      cases queue with
      | nil => exact ⟨L, guarded⟩
      | cons item queue => trivial
  | succ rounds ih =>
      cases queue with
      | nil => exact ⟨L, guarded⟩
      | cons item queue =>
          rw [processRounds]
          refine settles_bind (transaction_guarded faithful fuel (turns 0) (turns 0).limit L s _ guarded queued) ?_
          rintro ⟨s', queue', done⟩ ⟨⟨L', guarded'⟩, queued'⟩
          have flushed : Settles (flushBetween (turns 0) s') (fun _ => True) (Guarded env handed L') := by
            unfold flushBetween
            split
            · exact flush_guarded L' s' guarded'
            · exact guarded'
          refine settles_bind flushed fun s'' guarded'' => ?_
          refine settles_bind (ih (fun k => turns (k + 1)) L' s'' queue' guarded'' queued') ?_
          rintro ⟨last, seen⟩ ended
          rw [settles_ok]
          exact ended

theorem delivered_guarded
    (genesisSigned : env.validateMessage (genesisAccount env.network) (genesisHash env) (genesisSignature env.network) = false)
    (given : List Block) (s : Store) (delivered : Delivered env given s) (within : ∀ b ∈ given, b ∈ handed) :
    ∃ L, Guarded env handed L s := by
  induction delivered with
  | genesis now s started =>
      have plain := genesis_started started
      have files := fun P => files_none P s plain.unchecked plain.cache
      refine ⟨genesisLattice env _, consistent_genesis env _, plain.agrees, ?_, ?_, files _⟩
      · intro h n stored
        obtain ⟨rfl, rfl⟩ := genesis_stored _ stored
        exact List.mem_cons_self
      · intro h n stored
        obtain ⟨rfl, rfl⟩ := genesis_stored _ stored
        exact genesisSigned
  | receive fuel turns before blocks s out _ returned ih =>
      obtain ⟨L, guarded⟩ := ih fun b member => within b (List.mem_append_left _ member)
      have queued : Queued handed (blocks.map fun block => ⟨block, false⟩) := by
        intro item member
        obtain ⟨b, new, rfl⟩ := List.mem_map.mp member
        exact ⟨rfl, within b (List.mem_append_right _ new)⟩
      have settled := rounds_guarded faithful fuel fuel turns L s _ guarded queued
      rw [processReceiveMany] at returned
      rwa [returned, settles_ok] at settled
  | flush before s s' _ returned ih =>
      obtain ⟨L, guarded⟩ := ih within
      have settled := flush_guarded L s guarded
      rw [returned, settles_ok] at settled
      exact ⟨L, settled⟩

end Guarding

-- Where no copy with more work is worse than the block it replaces, every stored block is in
-- one table and signed by the account on whose chain it stands.
theorem stored_blocks_stay_signed (env : Env) (apart : HashesApart env) (handed : List Block) (faithful : Faithful env handed)
    (genesisSigned : env.validateMessage (genesisAccount env.network) (genesisHash env) (genesisSignature env.network) = false)
    (s : Store) (delivered : Delivered env handed s) (h : Hash) (kind : Kind) (present : (s.blocks kind).get h ≠ none) :
    (∀ other, (s.blocks other).get h ≠ none ↔ other = kind) ∧
    ∃ block account, blockGet s h = .ok (some block) ∧ block.kind = kind ∧ block.hash env = h ∧
      (∀ owner, OnChain s owner h ↔ owner = account) ∧ env.validateMessage account h block.signature = false := by
  obtain ⟨L, guarded⟩ := delivered_guarded faithful genesisSigned handed s delivered fun _ => id
  have holds := guarded.agrees.blocks
  have found : L.get h ≠ none := by
    intro absent
    exact present ((holds kind h).trans (raw_value_none L _ kind h absent))
  obtain ⟨n, stored⟩ := Option.ne_none_iff_exists'.mp found
  have placed : ∀ other, (s.blocks other).get h ≠ none ↔ other = n.block.kind := by
    intro other
    rw [holds other h]
    by_cases own : n.block.kind = other
    · simp [← own, raw_value_own L _ h n stored]
    · simp [raw_value_other L _ other h n stored own, Ne.symm own]
  obtain rfl := (placed kind).mp present
  have read := get_fits holds h n stored (guarded_fits faithful L s guarded h n stored)
  refine ⟨placed, n.block, n.account, read, rfl, guarded.consistent.hashed h n stored, ?_, guarded.signed h n stored⟩
  exact on_chain_iff guarded.consistent guarded.agrees h n stored

def deliverAll (env : Env) (fuel : Nat) (blocks : List Block) : Option Store :=
  match genesisInitialize env Store.fresh 0 with
  | .ok s =>
      match processReceiveMany env fuel (fun _ => ⟨1, false, fun _ => 0, ⟨.progress, 0, 0, 0⟩, insertionOrder⟩) s
        (blocks.map fun block => ⟨block, false⟩) with
      | .ok out => some out.1
      | .error _ => none
  | .error _ => none

theorem deliver_all_delivers (env : Env) (fuel : Nat) (blocks : List Block) (holds : Store → Bool)
    (ran : (deliverAll env fuel blocks).any holds = true) : ∃ s, Delivered env blocks s ∧ holds s = true := by
  obtain ⟨s, run, held⟩ := (Option.any_eq_true _ _).mp ran
  refine ⟨s, ?_, held⟩
  unfold deliverAll at run
  split at run
  · next start started =>
      split at run
      · next out returned =>
          cases run
          exact Delivered.receive fuel _ [] blocks start out (Delivered.genesis 0 start started) returned
      · cases run
  · cases run

theorem sample_genesis_signed : sampleEnv.validateMessage (genesisAccount sampleEnv.network) (genesisHash sampleEnv)
    (genesisSignature sampleEnv.network) = false := by
  decide +kernel

def reworkedSend : Block := { sampleSend with signature := 2, work := 1 }

theorem reworked_faithful : Faithful sampleEnv [sampleSend, reworkedSend] := by
  refine ⟨by decide, ?_⟩
  intro a before b after outworks
  obtain rfl | before := List.mem_cons.mp before
  · have apart : ∀ b ∈ [sampleSend, reworkedSend], (genesisOpen sampleEnv.network).hash sampleEnv ≠
      b.hash sampleEnv := by decide +kernel
    exact absurd outworks.1 (apart b after)
  · have content : ∀ b ∈ [sampleSend, reworkedSend], b.hashables = sampleSend.hashables := by simp [reworkedSend]
    have even : ∀ b ∈ [sampleSend, reworkedSend], b.signature.toNat % 2 = 0 := by decide +kernel
    refine ⟨(content b after).trans (content a before).symm, fun account good => ?_⟩
    simp only [sampleEnv, even a before, even b after] at good ⊢
    exact good

theorem stored_blocks_stay_signed_sample : ∃ s, Delivered sampleEnv [sampleSend, reworkedSend] s ∧
    blockGet s (sampleSend.hash sampleEnv) = .ok (some reworkedSend) ∧
    ∃ account, OnChain s account (sampleSend.hash sampleEnv) ∧
      sampleEnv.validateMessage account (sampleSend.hash sampleEnv) reworkedSend.signature = false := by
  obtain ⟨s, delivered, held⟩ := deliver_all_delivers sampleEnv 20 [sampleSend, reworkedSend] (fun s =>
    decide (blockGet s (sampleSend.hash sampleEnv) = .ok (some reworkedSend) ∧
      (s.blocks .sendBlock).get (sampleSend.hash sampleEnv) ≠ none)) (by decide +kernel)
  obtain ⟨read, present⟩ := of_decide_eq_true held
  obtain ⟨_, block, account, read', _, _, chain, good⟩ := stored_blocks_stay_signed sampleEnv sample_apart _ reworked_faithful
    sample_genesis_signed s delivered (sampleSend.hash sampleEnv) .sendBlock present
  have same : block = reworkedSend := Option.some.inj (Except.ok.inj (read'.symm.trans read))
  rw [same] at good
  exact ⟨s, delivered, read, account, (chain account).mpr rfl, good⟩

def forgedSend : Block := { sampleSend with signature := 1, work := 1 }

def genesisChange : Block := ⟨.changeBlock (genesisHash sampleEnv) (sampleKey 4), 0, 0⟩

def genesisChangeTwin : Block := ⟨.receiveBlock (genesisHash sampleEnv) (sampleKey 4), 0, 1⟩

theorem copies_go_unchecked :
    sampleEnv.validateMessage (genesisAccount sampleEnv.network) (genesisHash sampleEnv) (genesisSignature sampleEnv.network) = false ∧
    (∃ s, Delivered sampleEnv [sampleSend, forgedSend] s ∧ blockGet s (sampleSend.hash sampleEnv) = .ok (some forgedSend) ∧
      OnChain s (genesisAccount sampleEnv.network) (sampleSend.hash sampleEnv) ∧
      sampleEnv.validateMessage (genesisAccount sampleEnv.network) (sampleSend.hash sampleEnv) forgedSend.signature = true) ∧
    ∃ s, Delivered sampleEnv [genesisChange, genesisChangeTwin] s ∧
      (s.blocks .changeBlock).get (genesisChange.hash sampleEnv) ≠ none ∧
      (s.blocks .receiveBlock).get (genesisChange.hash sampleEnv) ≠ none := by
  refine ⟨sample_genesis_signed, ?_, ?_⟩
  · obtain ⟨s, delivered, held⟩ := deliver_all_delivers sampleEnv 20 [sampleSend, forgedSend] (fun s =>
      decide (blockGet s (sampleSend.hash sampleEnv) = .ok (some forgedSend)) &&
        (s.accounts.get (genesisAccount sampleEnv.network)).any fun info => info.head = sampleSend.hash sampleEnv ∧ 0 < info.blockCount)
      (by decide +kernel)
    obtain ⟨read, known⟩ := Bool.and_eq_true_iff.mp held
    obtain ⟨info, found, head⟩ := (Option.any_eq_true _ _).mp known
    obtain ⟨head, counted⟩ := of_decide_eq_true head
    refine ⟨s, delivered, of_decide_eq_true read, ⟨info, 0, found, counted, ?_⟩, by decide +kernel⟩
    rw [head]
    exact Path.start _
  · obtain ⟨s, delivered, held⟩ := deliver_all_delivers sampleEnv 20 [genesisChange, genesisChangeTwin] (fun s =>
      decide ((s.blocks .changeBlock).get (genesisChange.hash sampleEnv) ≠ none ∧
        (s.blocks .receiveBlock).get (genesisChange.hash sampleEnv) ≠ none)) (by decide +kernel)
    exact ⟨s, delivered, of_decide_eq_true held⟩

end Rai
