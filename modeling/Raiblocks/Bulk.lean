import Raiblocks.Wire

set_option autoImplicit false

namespace Rai

open Kit

-- `receive_buffer`, an array of fixed size.
structure Buffer (capacity : Nat) where
  bytes : Bytes
  full : bytes.length = capacity

-- `async_read` into the array from `offset` on. Without an error it has read all `n` bytes.
def asyncRead {capacity : Nat} (buffer : Buffer capacity) (offset n : Nat) (stream : Bytes) :
    Except Fault (Option (Buffer capacity × Bytes)) :=
  if inside : offset + n ≤ capacity then
    if enough : n ≤ stream.length then
      .ok (some (⟨buffer.bytes.take offset ++ (stream.take n ++ buffer.bytes.drop (offset + n)), by
        have := buffer.full
        simp only [List.length_append, List.length_take, List.length_drop]
        omega⟩, stream.drop n))
    else .ok none
  else .error .abort

-- The length that `received_type` reads for each type. For `send_v2` it is that of `send`.
def Kind.readSize : Kind → Nat
  | .sendBlock => 152
  | .sendBlockV2 => 152
  | .receiveBlock => 136
  | .openBlock => 168
  | .changeBlock => 136

def notABlock : UInt8 := 1

inductive Ending where
  | finished
  | unknownType
  | noType
  | noBlock
  | badBlock
deriving DecidableEq, Repr

inductive Received (capacity : Nat) where
  | ended (ending : Ending) (left : Bytes)
  | block (block : Block) (buffer : Buffer capacity) (stream : Bytes)

-- One round of the readers: the type, then as many bytes as the type has, then `deserialize_block`.
def receiveBlock {capacity : Nat} (size : UInt8 × UInt8) (buffer : Buffer capacity)
    (stream : Bytes) : Except Fault (Received capacity) := do
  match ← asyncRead buffer 0 1 stream with
  | none => .ok (.ended .noType [])
  | some (buffer, stream) =>
      let type ← require buffer.bytes.head?
      match Kind.ofByte type with
      | none => .ok (.ended (if type = notABlock then .finished else .unknownType) stream)
      | some kind =>
          match ← asyncRead buffer 1 kind.readSize stream with
          | none => .ok (.ended .noBlock [])
          | some (buffer, stream) =>
              match ← deserializeBlockStream size (buffer.bytes.take (1 + kind.readSize)) with
              | none => .ok (.ended .badBlock stream)
              | some (block, _) => .ok (.block block buffer stream)

structure Outcome (σ : Type) where
  ending : Ending
  left : Bytes
  state : σ

-- The two readers differ in the buffer and in what they do with a block.
def receiveBlocks {σ : Type} {capacity : Nat} (size : UInt8 × UInt8) (accept : σ → Block → σ) :
    Nat → Buffer capacity → Bytes → σ → Except Fault (Outcome σ)
  | 0, _, _, _ => .error .fuel
  | fuel + 1, buffer, stream, s => do
      match ← receiveBlock size buffer stream with
      | .ended ending left => .ok ⟨ending, left, s⟩
      | .block block buffer stream => receiveBlocks size accept fuel buffer stream (accept s block)

-- `received` lists the blocks that were decoded, `added` the calls of `block_processor.add`.
structure Pull where
  received : List Block
  expected : Hash
  added : List Block

def Pull.accept (env : Env) (pull : Pull) (block : Block) : Pull where
  received := pull.received ++ [block]
  expected := if block.hash env = pull.expected then block.previous else pull.expected
  added := pull.added ++ [block, block]

def bulkPullClient (env : Env) (size : UInt8 × UInt8) (fuel : Nat) (buffer : Buffer 200) (stream : Bytes) (pull : Pull) :
    Except Fault (Outcome Pull) :=
  receiveBlocks size (Pull.accept env) fuel buffer stream pull

-- `active` lists the calls of `process_active`, which is skipped while a bootstrap is in progress;
-- that may change from block to block.
structure Push where
  received : List Block
  active : List Block

def Push.accept (inProgress : List Block → Bool) (push : Push) (block : Block) : Push where
  received := push.received ++ [block]
  active := if inProgress push.received then push.active else push.active ++ [block]

def bulkPushServer (inProgress : List Block → Bool) (size : UInt8 × UInt8) (fuel : Nat) (buffer : Buffer 256)
    (stream : Bytes) (push : Push) :
    Except Fault (Outcome Push) :=
  receiveBlocks size (Push.accept inProgress) fuel buffer stream push

def bulkStream (blocks : List Block) : Bytes := blocks.flatMap serializeBlock ++ [notABlock]

def Block.Framed (block : Block) : Prop :=
  match block.hashables with
  | .sendBlockV2 _ _ action => action.length = 14
  | _ => True

theorem framed_length (block : Block) : block.Framed ↔ block.serialize.length = block.kind.readSize := by
  obtain ⟨hashables, signature, work⟩ := block
  cases hashables with
  | sendBlockV2 previous destination action =>
      simp only [Block.Framed, Block.serialize, Hashables.serialize, Block.kind, Hashables.kind, Kind.readSize, writeBytes,
        List.length_append, List.length_cons, word_bytes_length, word_bytes_le_length]
      omega
  | _ => simp [Block.Framed, Block.serialize, Hashables.serialize, Block.kind, Kind.readSize]

theorem read_size_bound (kind : Kind) : 1 + kind.readSize ≤ 169 := by
  cases kind <;> decide

section Round

variable {capacity : Nat} (size : UInt8 × UInt8) (buffer : Buffer capacity)

theorem async_read_filled (offset n : Nat) (stream : Bytes) (inside : offset + n ≤ capacity) (enough : n ≤ stream.length) :
    ∃ filled : Buffer capacity, filled.bytes.take (offset + n) = buffer.bytes.take offset ++ stream.take n ∧
      asyncRead buffer offset n stream = .ok (some (filled, stream.drop n)) := by
  have length : (buffer.bytes.take offset ++ stream.take n).length = offset + n := by
    rw [List.length_append, List.length_take_of_le (by rw [buffer.full]; omega), List.length_take_of_le enough]
  rw [asyncRead, dif_pos inside, dif_pos enough]
  refine ⟨_, ?_, rfl⟩
  dsimp only
  rw [← List.append_assoc, List.take_left' length]

theorem async_read_short (offset n : Nat) (stream : Bytes) (inside : offset + n ≤ capacity) (short : stream.length < n) :
    asyncRead buffer offset n stream = .ok none := by
  rw [asyncRead, dif_pos inside, dif_neg (by omega)]

variable (room : 169 ≤ capacity)

include room

theorem receive_type (type : UInt8) (stream : Bytes) : ∃ filled :
    Buffer capacity, filled.bytes.take 1 = [type] ∧ filled.bytes.head? = some type ∧
    asyncRead buffer 0 1 (type :: stream) = .ok (some (filled, stream)) := by
  obtain ⟨filled, start, read⟩ := async_read_filled buffer 0 1 (type :: stream) (by omega) (by simp)
  refine ⟨filled, start, ?_, read⟩
  have first := congrArg List.head? start
  rwa [List.head?_take, if_neg (by decide)] at first

theorem receive_none : receiveBlock size buffer [] = .ok (.ended .noType []) := by
  rw [receiveBlock, async_read_short buffer 0 1 [] (by omega) (by decide)]
  rfl

theorem receive_other (type : UInt8) (stream : Bytes) (other : Kind.ofByte type = none) :
    receiveBlock size buffer (type :: stream) = .ok (.ended (if type = notABlock then .finished else .unknownType) stream) := by
  obtain ⟨filled, _, first, read⟩ := receive_type buffer room type stream
  simp only [receiveBlock, read, bind_ok, first, require_some, other]

theorem receive_cut (kind : Kind) (stream : Bytes) (short : stream.length < kind.readSize) :
    receiveBlock size buffer (kind.byte :: stream) = .ok (.ended .noBlock []) := by
  obtain ⟨filled, _, first, read⟩ := receive_type buffer room kind.byte stream
  have bound := read_size_bound kind
  simp only [receiveBlock, read, bind_ok, first, require_some, kind_of_byte,
    async_read_short filled 1 kind.readSize stream (by omega) short]

theorem receive_kind (kind : Kind) (stream : Bytes) (enough : kind.readSize ≤ stream.length) : ∃ filled : Buffer capacity,
    receiveBlock size buffer (kind.byte :: stream) =
      .ok (match Block.deserialize size kind (stream.take kind.readSize) with
        | none => .ended .badBlock (stream.drop kind.readSize)
        | some out => .block out.1 filled (stream.drop kind.readSize)) := by
  obtain ⟨held, start, first, read⟩ := receive_type buffer room kind.byte stream
  have bound := read_size_bound kind
  obtain ⟨filled, whole, readBlock⟩ := async_read_filled held 1 kind.readSize stream (by omega) enough
  rw [start] at whole
  refine ⟨filled, ?_⟩
  simp only [receiveBlock, read, bind_ok, first, require_some, kind_of_byte, readBlock, whole, List.singleton_append,
    deserializeBlockStream, deserializeBlockTyped]
  cases Block.deserialize size kind (stream.take kind.readSize) <;> rfl

-- What a round can do, on any stream: nothing outside the buffer is touched, and a block that is
-- decoded took the bytes of its type, whatever it needed of them.
theorem receive_round (stream : Bytes) : ∃ out, receiveBlock size buffer stream = .ok out ∧
    match out with
    | .ended ending left => ending = .finished → stream = notABlock :: left
    | .block block _ rest => ∃ unused, stream = serializeBlock block ++ (unused ++ rest) ∧
      block.serialize.length + unused.length = block.kind.readSize := by
  cases stream with
  | nil => exact ⟨_, receive_none size buffer room, fun finished => by cases finished⟩
  | cons type stream =>
      cases known : Kind.ofByte type with
      | none =>
          refine ⟨_, receive_other size buffer room type stream known, fun finished => ?_⟩
          split at finished
          · next marker => rw [marker]
          · cases finished
      | some kind =>
          rw [of_byte_kind type kind known]
          by_cases enough : kind.readSize ≤ stream.length
          · obtain ⟨filled, round⟩ := receive_kind size buffer room kind stream enough
            cases read : Block.deserialize size kind (stream.take kind.readSize) with
            | none =>
                rw [read] at round
                exact ⟨_, round, fun finished => by cases finished⟩
            | some out =>
                rw [read] at round
                obtain ⟨⟨rfl, _⟩, same⟩ := (block_inverts size kind).exact _ _ _ read
                refine ⟨_, round, out.2, ?_, ?_⟩
                · rw [serializeBlock, List.cons_append, ← List.append_assoc, ← same, List.take_append_drop]
                · rw [← List.length_append, ← same, List.length_take_of_le enough]
          · exact ⟨_, receive_cut size buffer room kind stream (by omega), fun finished => by cases finished⟩

theorem receive_framed (block : Block) (rest : Bytes) (fits : block.Fits) (framed : block.Framed) : ∃ filled : Buffer capacity,
    receiveBlock size buffer (serializeBlock block ++ rest) = .ok (.block block filled rest) := by
  have length := (framed_length block).mp framed
  obtain ⟨filled, round⟩ := receive_kind size buffer room block.kind (block.serialize ++ rest)
    (by rw [List.length_append, length]; omega)
  have read := (block_inverts size block.kind).complete block [] ⟨rfl, fits⟩
  rw [List.append_nil] at read
  rw [List.take_left' length, List.drop_left' length, read] at round
  exact ⟨filled, round⟩

end Round

section Stream

variable {σ : Type} {capacity : Nat} (size : UInt8 × UInt8) (accept : σ → Block → σ) (room : 169 ≤ capacity)

include room

-- On any bytes at all the readers stop, and what they took stands in the stream, block after block.
theorem receive_blocks_any (fuel : Nat) (buffer : Buffer capacity) (stream : Bytes) (s : σ) (enough : stream.length < fuel) :
    ∃ (outcome : Outcome σ) (frames : List (Block × Bytes)), receiveBlocks size accept fuel buffer stream s = .ok outcome ∧
      outcome.state = (frames.map Prod.fst).foldl accept s ∧
      (frames.flatMap fun frame => serializeBlock frame.1 ++ frame.2) <+: stream ∧
      ∀ frame ∈ frames, frame.1.serialize.length + frame.2.length = frame.1.kind.readSize := by
  induction fuel generalizing buffer stream s with
  | zero => omega
  | succ fuel ih =>
      obtain ⟨out, round, cases⟩ := receive_round size buffer room stream
      simp only [receiveBlocks, round, bind_ok]
      cases out with
      | ended ending left => exact ⟨_, [], rfl, rfl, List.nil_prefix, by simp⟩
      | block block filled rest =>
          obtain ⟨unused, rfl, length⟩ := cases
          have shorter : rest.length < fuel := by
            rw [serializeBlock, List.cons_append, List.length_cons, List.length_append, List.length_append] at enough
            omega
          obtain ⟨outcome, frames, read, folded, within, lengths⟩ := ih filled rest (accept s block) shorter
          refine ⟨outcome, (block, unused) :: frames, read, folded, ?_, List.forall_mem_cons.mpr ⟨length, lengths⟩⟩
          rw [List.flatMap_cons, ← List.append_assoc]
          exact (List.prefix_append_right_inj _).mpr within

theorem receive_blocks_framed (blocks : List Block) (rest : Bytes) (fits : ∀ block ∈ blocks, block.Fits ∧ block.Framed) (fuel : Nat)
    (buffer : Buffer capacity) (s : σ) (enough : blocks.length < fuel) :
    receiveBlocks size accept fuel buffer (blocks.flatMap serializeBlock ++ notABlock :: rest) s =
    .ok ⟨.finished, rest, blocks.foldl accept s⟩ := by
  induction blocks generalizing fuel buffer s with
  | nil =>
      obtain _ | fuel := fuel
      · omega
      · have round := receive_other size buffer room notABlock rest (by decide)
        simp only [List.flatMap_nil, List.nil_append, receiveBlocks, round, bind_ok]
        rfl
  | cons block blocks ih =>
      obtain _ | fuel := fuel
      · omega
      · obtain ⟨first, others⟩ := List.forall_mem_cons.mp fits
        obtain ⟨filled, round⟩ :=
          receive_framed size buffer room block (blocks.flatMap serializeBlock ++ notABlock :: rest) first.1 first.2
        simp only [List.flatMap_cons, List.append_assoc, receiveBlocks, round, bind_ok, List.foldl_cons]
        exact ih others fuel filled (accept s block) (by simpa using enough)

theorem receive_blocks_frames (fuel : Nat) (buffer : Buffer capacity) (stream left : Bytes) (s t : σ)
    (finished : receiveBlocks size accept fuel buffer stream s = .ok ⟨.finished, left, t⟩) :
    ∃ frames : List (Block × Bytes), t = (frames.map Prod.fst).foldl accept s ∧
      stream = (frames.flatMap fun frame => serializeBlock frame.1 ++ frame.2) ++ notABlock :: left ∧
      ∀ frame ∈ frames, frame.1.serialize.length + frame.2.length = frame.1.kind.readSize := by
  induction fuel generalizing buffer stream s with
  | zero => cases finished
  | succ fuel ih =>
      obtain ⟨out, round, cases⟩ := receive_round size buffer room stream
      simp only [receiveBlocks, round, bind_ok] at finished
      cases out with
      | ended ending rest =>
          cases finished
          exact ⟨[], rfl, cases rfl, by simp⟩
      | block block filled rest =>
          obtain ⟨unused, same, length⟩ := cases
          obtain ⟨frames, folded, tail, lengths⟩ := ih filled rest (accept s block) finished
          refine ⟨(block, unused) :: frames, folded, ?_, List.forall_mem_cons.mpr ⟨length, lengths⟩⟩
          rw [same, tail, List.flatMap_cons, List.append_assoc, List.append_assoc]

end Stream

theorem received_fold {σ : Type} (accept : σ → Block → σ) (received : σ → List Block)
    (logged : ∀ s block, received (accept s block) = received s ++ [block]) (blocks : List Block) (s : σ) :
    received (blocks.foldl accept s) = received s ++ blocks := by
  induction blocks generalizing s with
  | nil => simp
  | cons block blocks ih => rw [List.foldl_cons, ih, logged, List.append_assoc, List.singleton_append]

def streamedBlocks : List Block := [⟨.receiveBlock 5 7, 0, 0⟩, ⟨.changeBlock 5 7, 0, 0⟩]

def brokenStream : Bytes := streamedBlocks.flatMap serializeBlock ++ [2, 3, 4]

-- Two blocks, and the beginning of a third one.
theorem receive_blocks_any_sample : ∃ (outcome : Outcome Push) (frames : List (Block × Bytes)),
    bulkPushServer (fun _ => false) (0, 0) 278 ⟨.replicate 256 0, List.length_replicate⟩ brokenStream ⟨[], []⟩ = .ok outcome ∧
    outcome.ending = .noBlock ∧ outcome.state.received = streamedBlocks ∧ frames.map Prod.fst = streamedBlocks ∧
    (frames.flatMap fun frame => serializeBlock frame.1 ++ frame.2) <+: brokenStream := by
  obtain ⟨outcome, frames, read, folded, within, _⟩ := receive_blocks_any (0, 0) (Push.accept fun _ => false) (by decide) 278
    ⟨.replicate 256 0, List.length_replicate⟩ brokenStream ⟨[], []⟩ (by decide +kernel)
  have ran : (receiveBlocks (0, 0) (Push.accept fun _ => false) 278 ⟨.replicate 256 0, List.length_replicate⟩ brokenStream ⟨[], []⟩).map
      (fun outcome => (outcome.ending, outcome.state.received)) = .ok (.noBlock, streamedBlocks) := by decide +kernel
  rw [read] at ran
  have both := Except.ok.inj ran
  have received : outcome.state.received = streamedBlocks := congrArg Prod.snd both
  have framed : outcome.state.received = frames.map Prod.fst := by
    rw [folded, received_fold (Push.accept fun _ => false) Push.received fun _ _ => rfl, List.nil_append]
  exact ⟨outcome, frames, read, congrArg Prod.fst both, received, framed.symm.trans received, within⟩

theorem frames_length (frames : List (Block × Bytes)) : (frames.flatMap fun frame => serializeBlock frame.1 ++ frame.2).length =
    ((frames.map Prod.fst).flatMap serializeBlock).length + (frames.map fun frame => frame.2.length).sum := by
  induction frames with
  | nil => rfl
  | cons frame frames ih =>
      simp only [List.flatMap_cons, List.length_append, List.map_cons, List.sum_cons, ih]
      omega

def Decodes {σ : Type} (run : Nat → Except Fault (Outcome σ)) (received : σ → List Block) (before : σ) (blocks : List Block) : Prop :=
  ∃ outcome, Yields run outcome ∧ outcome.ending = .finished ∧ outcome.left = [] ∧ received outcome.state = received before ++ blocks

theorem decodes_iff {σ : Type} {capacity : Nat} (size : UInt8 × UInt8) (accept : σ → Block → σ) (received : σ → List Block)
    (logged : ∀ s block, received (accept s block) = received s ++ [block]) (room : 169 ≤ capacity) (buffer : Buffer capacity) (s : σ)
    (blocks : List Block) (fits : ∀ block ∈ blocks, block.Fits) :
    Decodes (fun fuel => receiveBlocks size accept fuel buffer (bulkStream blocks) s) received s blocks ↔
    ∀ block ∈ blocks, block.Framed := by
  constructor
  · rintro ⟨⟨ending, left, t⟩, ⟨bound, settled⟩, rfl, rfl, log⟩
    obtain ⟨frames, folded, same, lengths⟩ := receive_blocks_frames size accept room bound buffer _ _ s t (settled bound le_rfl)
    rw [folded, received_fold accept received logged, List.append_cancel_left_eq] at log
    -- The frames are as long as the blocks, so no frame has bytes that its block did not use.
    have total := congrArg List.length (List.append_cancel_right same)
    rw [frames_length, log] at total
    have unused : (frames.map fun frame => frame.2.length).sum = 0 := by omega
    intro block sent
    rw [← log] at sent
    obtain ⟨frame, member, rfl⟩ := List.mem_map.mp sent
    have none := List.sum_eq_zero_iff.mp unused frame.2.length (List.mem_map.mpr ⟨frame, member, rfl⟩)
    exact (framed_length frame.1).mpr (by rw [← lengths frame member, none]; rfl)
  · intro framed
    refine ⟨⟨.finished, [], blocks.foldl accept s⟩, ⟨blocks.length + 1, fun fuel enough => ?_⟩, rfl, rfl,
      received_fold accept received logged blocks s⟩
    exact receive_blocks_framed size accept room blocks [] (fun block sent => ⟨fits block sent, framed block sent⟩) fuel
      buffer s (by omega)

theorem bulk_decodes_iff (env : Env) (inProgress : List Block → Bool) (size : UInt8 × UInt8) (blocks : List Block)
    (fits : ∀ block ∈ blocks, block.Fits) (client : Buffer 200) (server : Buffer 256) (pull : Pull) (push : Push) :
    (Decodes (fun fuel => bulkPullClient env size fuel client (bulkStream blocks) pull) Pull.received pull blocks ↔
        ∀ block ∈ blocks, block.Framed) ∧
      (Decodes (fun fuel => bulkPushServer inProgress size fuel server (bulkStream blocks) push) Push.received push blocks ↔
        ∀ block ∈ blocks, block.Framed) :=
  ⟨decodes_iff size (Pull.accept env) Pull.received (fun _ _ => rfl) (by decide) client pull blocks fits,
    decodes_iff size (Push.accept inProgress) Push.received (fun _ _ => rfl) (by decide) server push blocks fits⟩

def sampleBuffer (capacity : Nat) : Buffer capacity := ⟨List.replicate capacity 0, List.length_replicate⟩

-- Two blocks, one of them a send of the second version with an action of fourteen bytes.
theorem bulk_decodes_iff_framed :
    let blocks : List Block := [⟨.changeBlock 3 4, 5, 6⟩, ⟨.sendBlockV2 3 4 (List.replicate 14 9), 5, 6⟩]
    Decodes (fun fuel => bulkPullClient sampleEnv (0, 0) fuel (sampleBuffer 200) (bulkStream blocks) ⟨[], 0, []⟩) Pull.received
    ⟨[], 0, []⟩ blocks ∧
      Decodes (fun fuel => bulkPushServer (fun _ => false) (0, 0) fuel (sampleBuffer 256) (bulkStream blocks) ⟨[], []⟩) Push.received
      ⟨[], []⟩ blocks := by
  have fits : ∀ block ∈ [(⟨.changeBlock 3 4, 5, 6⟩ : Block), ⟨.sendBlockV2 3 4 (List.replicate 14 9), 5, 6⟩], block.Fits := by
    simp [Block.Fits, Hashables.Fits]
  have framed : ∀ block ∈ [(⟨.changeBlock 3 4, 5, 6⟩ : Block), ⟨.sendBlockV2 3 4 (List.replicate 14 9), 5, 6⟩], block.Framed := by
    simp [Block.Framed]
  have both := bulk_decodes_iff sampleEnv (fun _ => false) (0, 0) _ fits (sampleBuffer 200) (sampleBuffer 256) ⟨[], 0, []⟩ ⟨[], []⟩
  exact ⟨both.1.mpr framed, both.2.mpr framed⟩

-- A send of the second version without an action is 138 bytes long, and the readers wait for 152.
theorem bulk_loses_block :
    let blocks : List Block := [⟨.sendBlockV2 3 4 [], 5, 6⟩]
    Block.Fits ⟨.sendBlockV2 3 4 [], 5, 6⟩ ∧
      (∀ fuel, 1 ≤ fuel → bulkPullClient sampleEnv (0, 0) fuel (sampleBuffer 200) (bulkStream blocks) ⟨[], 0, []⟩ =
      .ok ⟨.noBlock, [], ⟨[], 0, []⟩⟩) ∧
      ∀ fuel, 1 ≤ fuel → bulkPushServer (fun _ => false) (0, 0) fuel (sampleBuffer 256) (bulkStream blocks) ⟨[], []⟩ =
      .ok ⟨.noBlock, [], ⟨[], []⟩⟩ := by
  have short : ((Block.mk (.sendBlockV2 3 4 []) 5 6).serialize ++ [notABlock]).length < Kind.sendBlockV2.readSize := by
    simp [Block.serialize, Hashables.serialize, writeBytes, Kind.readSize]
  refine ⟨by simp [Block.Fits, Hashables.Fits], fun fuel enough => ?_, fun fuel enough => ?_⟩
  · obtain ⟨fuel, rfl⟩ := Nat.exists_eq_add_of_le' enough
    have round := receive_cut (0, 0) (sampleBuffer 200) (by decide) .sendBlockV2 _ short
    simp only [bulkPullClient, receiveBlocks, bulkStream, List.flatMap_cons, List.flatMap_nil, List.append_nil,
      serializeBlock, List.cons_append]
    exact (congrArg (· >>= _) round).trans rfl
  · obtain ⟨fuel, rfl⟩ := Nat.exists_eq_add_of_le' enough
    have round := receive_cut (0, 0) (sampleBuffer 256) (by decide) .sendBlockV2 _ short
    simp only [bulkPushServer, receiveBlocks, bulkStream, List.flatMap_cons, List.flatMap_nil, List.append_nil,
      serializeBlock, List.cons_append]
    exact (congrArg (· >>= _) round).trans rfl

end Rai
