import Raiblocks.Chains
import Raiblocks.Kit.Cursor
import Mathlib.Data.Finset.Sort

set_option autoImplicit false

namespace Rai

open Kit

inductive PullBlocksMode where
  | listBlocks
  | checksumBlocks
deriving DecidableEq, Repr

-- `bulk_pull_blocks_server`, with the fields of its request. The stream is what its iterator has still to come to.
structure RangeServer where
  minHash : Hash
  maxHash : Hash
  mode : PullBlocksMode
  maxCount : BitVec 32
  stream : List Hash
  sentCount : Nat
  checksum : Hash

-- What is written: a block, the checksum behind a not_a_block byte, or the not_a_block byte that ends the answer.
inductive RangeReply where
  | block (block : Block)
  | checksum (sum : Hash)
  | finished
deriving DecidableEq

namespace RangeServer

section Model

variable (env : Env) (s : Store)

def setParams (minHash maxHash : Hash) (maxCount : BitVec 32) (mode : PullBlocksMode) : RangeServer where
  minHash := minHash
  maxHash := if maxHash < minHash then minHash else maxHash
  mode := mode
  maxCount := maxCount
  stream := (s.blocksInfo.rows.map Prod.fst).filter (minHash ≤ ·)
  sentCount := 0
  checksum := 0

-- The count goes above `max_count` only in the call that finds no more to send.
def countSent (server : RangeServer) : RangeServer :=
  if server.maxCount ≠ 0 then { server with sentCount := server.sentCount + 1 } else server

def outOfBounds (server : RangeServer) : Bool := decide (server.maxCount ≠ 0 ∧ server.maxCount.toNat ≤ server.sentCount)

def getNext (server : RangeServer) : Except Fault (Option Block × RangeServer) :=
  if server.outOfBounds = true then .ok (none, server.countSent)
  else
    match server.stream with
    | [] => .ok (none, server.countSent)
    | current :: rest =>
        if current < server.maxHash then do
          let result ← blockGet s current
          .ok (result, { server.countSent with stream := rest })
        else .ok (none, server.countSent)

def absorb (server : RangeServer) (block : Block) : RangeServer :=
  match server.mode with
  | .listBlocks => server
  | .checksumBlocks => { server with checksum := server.checksum ^^^ block.hash env }

-- In checksum mode the buffer stays empty and nothing is written for a block.
def writeBlock (server : RangeServer) (block : Block) : List RangeReply :=
  match server.mode with
  | .listBlocks => [.block block]
  | .checksumBlocks => []

def sendFinished (server : RangeServer) : List RangeReply :=
  match server.mode with
  | .listBlocks => [.finished]
  | .checksumBlocks => [.checksum server.checksum, .finished]

def sendAll : Nat → RangeServer → Except Fault (List RangeReply)
  | 0, _ => .error .fuel
  | fuel + 1, server => do
      let (result, next) ← getNext s server
      match result with
      | some block => do
          let rest ← sendAll fuel (next.absorb env block)
          .ok (next.writeBlock block ++ rest)
      | none => .ok next.sendFinished

def serve (fuel : Nat) (minHash maxHash : Hash) (maxCount : BitVec 32) (mode : PullBlocksMode) : Except Fault (List RangeReply) :=
  sendAll env s fuel (setParams s minHash maxHash maxCount mode)

end Model

end RangeServer

def bounded (count : BitVec 32) (list : List Hash) : List Hash := if count = 0 then list else list.take count.toNat

def storedHashes (s : Store) : Finset Hash := lookupOrder.toFinset.biUnion fun kind => (s.blocks kind).keys

def rangeHashes (s : Store) (minHash maxHash : Hash) (maxCount : BitVec 32) : List Hash :=
  bounded maxCount ((storedHashes s).filter fun h => minHash ≤ h ∧ h < maxHash).sort

def ReadBlocks (s : Store) : List Hash → List Block → Prop := List.Forall₂ fun h block => blockGet s h = .ok (some block)

def hashSum (env : Env) (start : Hash) (blocks : List Block) : Hash := blocks.foldl (fun sum block => sum ^^^ block.hash env) start

def ServesRange (env : Env) (s : Store) (minHash maxHash : Hash) (maxCount : BitVec 32) : Prop :=
  ∃ blocks, ReadBlocks s (rangeHashes s minHash maxHash maxCount) blocks ∧
    Yields (fun fuel => RangeServer.serve env s fuel minHash maxHash maxCount .listBlocks) (blocks.map .block ++ [.finished]) ∧
    Yields (fun fuel => RangeServer.serve env s fuel minHash maxHash maxCount .checksumBlocks)
      [.checksum (hashSum env 0 blocks), .finished]

theorem mem_stored_hashes (s : Store) (h : Hash) : h ∈ storedHashes s ↔ blockExists s h = true := by
  simp only [storedHashes, Finset.mem_biUnion, List.mem_toFinset, Table.mem_keys, blockExists, List.any_eq_true,
    Option.isSome_iff_ne_none]

theorem bounded_mem (count : BitVec 32) (list : List Hash) (h : Hash) (member : h ∈ bounded count list) : h ∈ list := by
  unfold bounded at member
  split at member
  · exact member
  · exact List.mem_of_mem_take member

-- Taking what passes a test first and cutting then is harmless only if nothing within the cut fails it.
theorem take_filter (list : List Hash) (test : Hash → Bool) (count : Nat) (passes : ∀ h ∈ list.take count, test h = true) :
    (list.filter test).take count = list.take count := by
  induction list generalizing count with
  | nil => rfl
  | cons h list ih =>
      cases count with
      | zero => rfl
      | succ count =>
          rw [List.take_succ_cons] at passes ⊢
          rw [List.filter_cons_of_pos (passes h List.mem_cons_self), List.take_succ_cons,
            ih count fun x member => passes x (List.mem_cons_of_mem h member)]

theorem bounded_filter_iff (count : BitVec 32) (list : List Hash) (test : Hash → Bool) :
    bounded count (list.filter test) = bounded count list ↔ ∀ h ∈ bounded count list, test h = true := by
  constructor
  · intro same h member
    rw [← same] at member
    exact (List.mem_filter.mp (bounded_mem count _ h member)).2
  · intro passes
    unfold bounded at passes ⊢
    split
    · next all =>
        rw [if_pos all] at passes
        exact List.filter_eq_self.mpr passes
    · next some =>
        rw [if_neg some] at passes
        exact take_filter list test _ passes

section Server

variable {s : Store}

def RangeServer.served (server : RangeServer) : List Hash :=
  let within := server.stream.filter (· < server.maxHash)
  if server.maxCount = 0 then within else within.take (server.maxCount.toNat - server.sentCount)

structure Streaming (s : Store) (server : RangeServer) : Prop where
  ascending : server.stream.Pairwise (· < ·)
  stored : ∀ h ∈ server.stream, ∃ block, blockGet s h = .ok (some block)

theorem count_sent_fields (server : RangeServer) : server.countSent.mode = server.mode ∧ server.countSent.checksum = server.checksum ∧
    server.countSent.maxHash = server.maxHash ∧ server.countSent.maxCount = server.maxCount ∧
    (server.maxCount ≠ 0 → server.countSent.sentCount = server.sentCount + 1) := by
  unfold RangeServer.countSent
  split
  · exact ⟨rfl, rfl, rfl, rfl, fun _ => rfl⟩
  · next all => exact ⟨rfl, rfl, rfl, rfl, fun some => absurd some all⟩

theorem get_next_served (server : RangeServer) (streams : Streaming s server) :
    (server.served = [] ∧ ∃ next, server.getNext s = .ok (none, next) ∧ next.mode = server.mode ∧ next.checksum = server.checksum) ∨
    ∃ h rest block next, server.served = h :: rest ∧ blockGet s h = .ok (some block) ∧ server.getNext s = .ok (some block, next) ∧
      next.served = rest ∧ Streaming s next ∧ next.mode = server.mode ∧ next.checksum = server.checksum := by
  obtain ⟨mode, checksum, maxHash, maxCount, counted⟩ := count_sent_fields server
  unfold RangeServer.getNext
  split
  · next beyond =>
      obtain ⟨limited, reached⟩ := of_decide_eq_true beyond
      refine Or.inl ⟨?_, _, rfl, mode, checksum⟩
      rw [RangeServer.served, if_neg limited, Nat.sub_eq_zero_of_le reached, List.take_zero]
  · next within =>
      cases found : server.stream with
      | nil =>
          refine Or.inl ⟨?_, _, rfl, mode, checksum⟩
          simp [RangeServer.served, found]
      | cons current rest =>
          have ascending := streams.ascending
          rw [found, List.pairwise_cons] at ascending
          simp only
          split
          · next below =>
              obtain ⟨block, read⟩ := streams.stored current (found ▸ List.mem_cons_self)
              refine Or.inr ⟨current, _, block, { server.countSent with stream := rest }, ?_, read,
                by rw [read]; rfl, rfl, ⟨ascending.2, ?_⟩, mode, checksum⟩
              · rw [RangeServer.served, RangeServer.served, found, List.filter_cons_of_pos (by simpa using below)]
                simp only [maxHash, maxCount]
                split
                · rfl
                · next limited =>
                    have room : server.sentCount < server.maxCount.toNat := by
                      by_contra reached
                      exact within (decide_eq_true ⟨limited, by omega⟩)
                    rw [counted limited, ← List.take_succ_cons]
                    congr 1
                    omega
              · exact fun h member => streams.stored h (found ▸ List.mem_cons_of_mem current member)
          · next above =>
              -- The stream goes up, so nothing behind this hash is in range either.
              refine Or.inl ⟨?_, _, rfl, mode, checksum⟩
              have none : server.stream.filter (· < server.maxHash) = [] := by
                rw [found]
                refine List.filter_eq_nil_iff.mpr fun h member => ?_
                obtain rfl | later := List.mem_cons.mp member
                · simpa using above
                · have more := (ascending.1 h later).le
                  simpa using (not_lt.mp above).trans more
              simp [RangeServer.served, none]

def RangeServer.answer (env : Env) (server : RangeServer) (blocks : List Block) : List RangeReply :=
  match server.mode with
  | .listBlocks => blocks.map .block ++ [.finished]
  | .checksumBlocks => [.checksum (hashSum env server.checksum blocks), .finished]

theorem answer_cons (env : Env) (server : RangeServer) (block : Block) (blocks : List Block) :
    server.writeBlock block ++ (server.absorb env block).answer env blocks = server.answer env (block :: blocks) := by
  cases mode : server.mode with
  | listBlocks => simp [RangeServer.writeBlock, RangeServer.absorb, RangeServer.answer, mode]
  | checksumBlocks => simp [RangeServer.writeBlock, RangeServer.absorb, RangeServer.answer, mode, hashSum]

theorem answer_same (env : Env) (server next : RangeServer) (blocks : List Block) (mode : next.mode = server.mode)
    (checksum : next.checksum = server.checksum) : next.answer env blocks = server.answer env blocks := by
  rw [RangeServer.answer, RangeServer.answer, mode, checksum]

theorem answer_nil (env : Env) (server : RangeServer) : server.answer env [] = server.sendFinished := by
  cases mode : server.mode <;> simp [RangeServer.answer, RangeServer.sendFinished, mode, hashSum]

theorem send_all_served (env : Env) (hashes : List Hash) (server : RangeServer) (streams : Streaming s server)
    (served : server.served = hashes) :
    ∃ blocks, ReadBlocks s hashes blocks ∧ ∀ fuel, hashes.length < fuel →
    RangeServer.sendAll env s fuel server = .ok (server.answer env blocks) := by
  induction hashes generalizing server with
  | nil =>
      obtain ⟨_, next, got, mode, checksum⟩ | ⟨_, _, _, _, more, _⟩ := get_next_served server streams
      · refine ⟨[], List.Forall₂.nil, fun fuel enough => ?_⟩
        obtain ⟨fuel, rfl⟩ := Nat.exists_eq_add_one_of_ne_zero (Nat.ne_of_gt enough)
        simp only [RangeServer.sendAll, got, bind_ok, ← answer_nil env next, answer_same env server next [] mode checksum]
      · rw [served] at more
        cases more
  | cons h rest ih =>
      obtain ⟨none, _⟩ | ⟨h', rest', block, next, more, read, got, left, streams', mode, checksum⟩ := get_next_served server streams
      · rw [served] at none
        cases none
      · rw [served] at more
        obtain ⟨rfl, rfl⟩ := List.cons.inj more
        have absorbed : Streaming s (next.absorb env block) ∧ (next.absorb env block).served = next.served := by
          unfold RangeServer.absorb
          split
          · exact ⟨streams', rfl⟩
          · exact ⟨⟨streams'.ascending, streams'.stored⟩, rfl⟩
        obtain ⟨blocks, reads, sent⟩ := ih (next.absorb env block) absorbed.1 (absorbed.2.trans left)
        refine ⟨block :: blocks, List.Forall₂.cons read reads, fun fuel enough => ?_⟩
        obtain ⟨fuel, rfl⟩ := Nat.exists_eq_add_one_of_ne_zero (Nat.ne_of_gt (Nat.zero_lt_of_lt enough))
        have onward := sent fuel (by simpa using enough)
        simp only [RangeServer.sendAll, got, bind_ok, onward, answer_cons, answer_same env server next _ mode checksum]

end Server

section Range

variable {env : Env} {L : Lattice} {s : Store} (consistent : Consistent env L) (agrees : Agrees L s)

include agrees

theorem info_stored (h : Hash) (known : s.blocksInfo.get h ≠ none) : L.get h ≠ none := by
  obtain ⟨info, found⟩ := Option.ne_none_iff_exists'.mp known
  rw [agrees.checkpoints, checkpoint_some_iff] at found
  obtain ⟨n, stored, _⟩ := found
  simp [stored]

theorem params_stream (minHash maxHash : Hash) (maxCount : BitVec 32) (mode : PullBlocksMode) :
    Streaming s (RangeServer.setParams s minHash maxHash maxCount mode) := by
  refine ⟨List.Pairwise.filter _ s.blocksInfo.rows_ascending, fun h member => ?_⟩
  have known := (s.blocksInfo.mem_rows h).mp (List.mem_filter.mp member).1
  obtain ⟨n, stored⟩ := Option.ne_none_iff_exists'.mp (info_stored agrees h known)
  obtain ⟨block, read, _⟩ := get_reads_as agrees.blocks h n stored
  exact ⟨block, read⟩

theorem params_served (minHash maxHash : Hash) (maxCount : BitVec 32) (mode : PullBlocksMode) :
    (RangeServer.setParams s minHash maxHash maxCount mode).served =
      bounded maxCount ((((storedHashes s).filter fun h => minHash ≤ h ∧ h < maxHash).sort).filter fun h =>
      (s.blocksInfo.get h).isSome) := by
  have same : ((s.blocksInfo.rows.map Prod.fst).filter (minHash ≤ ·)).filter (· < if maxHash < minHash then minHash else maxHash) =
      (((storedHashes s).filter fun h => minHash ≤ h ∧ h < maxHash).sort).filter fun h => (s.blocksInfo.get h).isSome := by
    refine List.Pairwise.eq_of_mem_iff (r := (· < ·)) ?_ ?_ fun h => ?_
    · exact List.Pairwise.filter _ (List.Pairwise.filter _ s.blocksInfo.rows_ascending)
    · exact List.Pairwise.filter _ (Finset.sortedLT_sort _).pairwise
    · have stored : s.blocksInfo.get h ≠ none → blockExists s h = true := fun known =>
        (exists_iff agrees.blocks h).mpr (info_stored agrees h known)
      simp only [List.mem_filter, Table.mem_rows, Finset.mem_sort, Finset.mem_filter, mem_stored_hashes, decide_eq_true_eq,
        Option.isSome_iff_ne_none]
      by_cases inverted : maxHash < minHash
      · rw [if_pos inverted]
        have empty : ¬ (minHash ≤ h ∧ h < maxHash) := fun within => absurd (within.1.trans_lt within.2) (lt_asymm inverted)
        simp only [empty, and_false, false_and, iff_false]
        exact fun within => absurd within.2 (not_lt.mpr within.1.2)
      · rw [if_neg inverted]
        exact ⟨fun within => ⟨⟨stored within.1.1, within.1.2, within.2⟩, within.1.1⟩, fun within =>
          ⟨⟨within.2, within.1.2.1⟩, within.1.2.2⟩⟩
  exact congrArg (bounded maxCount) same

include consistent in
theorem read_blocks_injective [HashesApart env] (hashes hashes' : List Hash) (blocks : List Block) (reads : ReadBlocks s hashes blocks)
    (reads' : ReadBlocks s hashes' blocks) : hashes = hashes' := by
  have injective : Relator.LeftUnique fun h block => blockGet s h = .ok (some block) := fun x y block read read' =>
    read_injective consistent agrees x y block read read'
  exact List.left_unique_forall₂' injective reads reads'

theorem serve_yields_served (env : Env) (minHash maxHash : Hash) (maxCount : BitVec 32) :
    ∃ blocks, ReadBlocks s (RangeServer.setParams s minHash maxHash maxCount .listBlocks).served blocks ∧
      Yields (fun fuel => RangeServer.serve env s fuel minHash maxHash maxCount .listBlocks) (blocks.map .block ++ [.finished]) ∧
      Yields (fun fuel => RangeServer.serve env s fuel minHash maxHash maxCount .checksumBlocks)
      [.checksum (hashSum env 0 blocks), .finished] := by
  obtain ⟨blocks, reads, listed⟩ := send_all_served env _ _ (params_stream agrees minHash maxHash maxCount .listBlocks) rfl
  obtain ⟨blocks', reads', summed⟩ := send_all_served env _ _ (params_stream agrees minHash maxHash maxCount .checksumBlocks) rfl
  have functional : Relator.RightUnique fun h block => blockGet s h = .ok (some block) := fun h b c read read' =>
    Option.some.inj (Except.ok.inj (read.symm.trans read'))
  obtain rfl : blocks = blocks' := List.right_unique_forall₂' functional reads reads'
  exact ⟨blocks, reads, ⟨_, listed⟩, ⟨_, summed⟩⟩

end Range

theorem block_replies_injective (blocks blocks' : List Block)
    (same : blocks.map RangeReply.block ++ [.finished] = blocks'.map RangeReply.block ++ [.finished]) : blocks = blocks' := by
  have injective : Function.Injective RangeReply.block := fun _ _ => RangeReply.block.inj
  exact List.map_injective_iff.mpr injective (List.append_cancel_right same)

-- The server goes through the block infos, and only every 32nd block of a chain has one: a range is served as documented
-- only if each of its blocks is one of those.
theorem range_served_iff (env : Env) (apart : HashesApart env) (s : Store) (reached : Reachable env s) (minHash maxHash : Hash)
    (maxCount : BitVec 32) :
    ServesRange env s minHash maxHash maxCount ↔ ∀ h ∈ rangeHashes s minHash maxHash maxCount, s.blocksInfo.get h ≠ none := by
  obtain ⟨L, consistent, agrees⟩ := reachable_agrees reached
  obtain ⟨blocks, reads, listed, summed⟩ := serve_yields_served agrees env minHash maxHash maxCount
  rw [params_served agrees] at reads
  have passes : (∀ h ∈ rangeHashes s minHash maxHash maxCount, s.blocksInfo.get h ≠ none) ↔
      ∀ h ∈ rangeHashes s minHash maxHash maxCount, (s.blocksInfo.get h).isSome = true :=
    forall₂_congr fun h _ => Option.isSome_iff_ne_none.symm
  rw [passes, rangeHashes, ← bounded_filter_iff]
  constructor
  · rintro ⟨blocks', reads', listed', _⟩
    obtain rfl := block_replies_injective blocks blocks' (yields_unique listed listed')
    exact read_blocks_injective consistent agrees _ _ blocks reads reads'
  · intro same
    rw [same] at reads
    exact ⟨blocks, reads, listed, summed⟩

theorem mem_range_hashes (s : Store) (minHash maxHash h : Hash) :
    h ∈ rangeHashes s minHash maxHash 0 ↔ blockExists s h = true ∧ minHash ≤ h ∧ h < maxHash := by
  rw [rangeHashes, bounded, if_pos rfl, Finset.mem_sort, Finset.mem_filter, mem_stored_hashes]

-- No block of this ledger is as high in its chain as to have an info: above their hashes nothing is asked for, below them
-- the range is not served.
theorem range_served_sample : ∃ s, Replay sampleEnv sampleLog s ∧ ServesRange sampleEnv s 0x100000 0x40000000 0 ∧
    ¬ ServesRange sampleEnv s 0 0x100000 0 := by
  obtain ⟨s, _, replay, unlisted⟩ :=
    replay_checked sampleEnv 20 sampleLog (fun s => s.blocksInfo.get (sampleSend.hash sampleEnv) = none)
    (by decide +kernel)
  have reached := replay_reachable replay
  have low : ∀ h, blockExists s h = true → h < 0x100000 := by
    intro h present
    obtain ⟨L, consistent, agrees⟩ := reachable_agrees reached
    obtain ⟨n, stored⟩ := Option.ne_none_iff_exists'.mp ((exists_iff agrees.blocks h).mp present)
    have bound := (sample_hash_bounds n.block).2
    rw [consistent.hashed h n stored] at bound
    simpa [BitVec.lt_def] using bound
  refine ⟨s, replay, (range_served_iff sampleEnv sample_apart s reached _ _ _).mpr fun h member => ?_, fun serves => ?_⟩
  · obtain ⟨present, above, _⟩ := (mem_range_hashes s _ _ h).mp member
    exact absurd (low h present) (not_lt.mpr above)
  · have stored := replay_stored sampleLog s (by decide) replay sampleSend (by simp [sampleLog])
    have inside := (mem_range_hashes s 0 0x100000 _).mpr ⟨stored, by simp [BitVec.le_def], low _ stored⟩
    exact (range_served_iff sampleEnv sample_apart s reached _ _ _).mp serves _ inside unlisted

theorem serve_empty (env : Env) (s : Store) (minHash maxHash : Hash) (maxCount : BitVec 32)
    (empty : (RangeServer.setParams s minHash maxHash maxCount .listBlocks).stream = []) (fuel : Nat) :
    RangeServer.serve env s (fuel + 1) minHash maxHash maxCount .listBlocks = .ok [.finished] := by
  have finished : (RangeServer.setParams s minHash maxHash maxCount .listBlocks).countSent.sendFinished = [.finished] := by
    rw [RangeServer.sendFinished, (count_sent_fields _).1]
    rfl
  simp [RangeServer.serve, RangeServer.sendAll, RangeServer.getNext, empty, finished]

-- The genesis block is in the range, and the server sends none.
theorem range_sends_nothing : ∃ s, genesisInitialize sampleEnv Store.fresh 0 = .ok s ∧
    genesisHash sampleEnv ∈ rangeHashes s 0 0x100000 0 ∧
    (∀ fuel, RangeServer.serve sampleEnv s (fuel + 1) 0 0x100000 0 .listBlocks = .ok [.finished]) ∧
    ¬ ServesRange sampleEnv s 0 0x100000 0 := by
  have computed : (genesisInitialize sampleEnv Store.fresh 0).map (fun s => (blockExists s (genesisHash sampleEnv),
      (RangeServer.setParams s 0 0x100000 0 .listBlocks).stream)) = .ok (true, []) := by decide +kernel
  obtain ⟨s, started, facts⟩ := map_returned computed
  obtain ⟨present, empty⟩ := Prod.mk.inj facts
  have high : genesisHash sampleEnv < 0x100000 := by decide +kernel
  have inside := (mem_range_hashes s 0 0x100000 _).mpr ⟨present, by simp [BitVec.le_def], high⟩
  have nothing := serve_empty sampleEnv s 0 0x100000 0 empty
  refine ⟨s, started, inside, nothing, ?_⟩
  rintro ⟨blocks, reads, ⟨bound, listed⟩, _⟩
  have sent := (nothing bound).symm.trans (listed (bound + 1) (by omega))
  obtain rfl : [] = blocks := block_replies_injective [] blocks (Except.ok.inj sent)
  rw [List.forall₂_nil_right_iff.mp reads] at inside
  cases inside

end Rai
