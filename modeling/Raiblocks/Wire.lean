import Raiblocks.Messages
import Raiblocks.UncheckedSpec
import Raiblocks.Kit.Codec

set_option autoImplicit false

namespace Rai

open Kit

theorem magic_number_length (network : Network) : (magicNumber network).length = 2 := by
  cases network <;> rfl

theorem header_inverts (network : Network) : Inverts (Header.read network) (Header.write network) fun _ => True := by
  constructor
  · intro header rest _
    obtain ⟨c1, c2, magic⟩ := List.length_eq_two.mp (magic_number_length network)
    simp [Header.write, Header.read, magic, read_word_le_written]
  · intro stream header rest got
    unfold Header.read at got
    split at got
    · next c1 c2 versionMax versionUsing versionMin type tail =>
        split at got
        · next magic =>
            simp only [Option.bind_eq_bind, Option.bind_eq_some_iff, Prod.exists] at got
            obtain ⟨extensions, left, read, out⟩ := got
            obtain ⟨_, same⟩ := (read_word_le_inverts 2 16 rfl).exact tail extensions left read
            obtain ⟨rfl, rfl⟩ := Prod.mk.inj (Option.some.inj out)
            exact ⟨trivial, by rw [Header.write, ← magic, same]; simp⟩
        · cases got
    · cases got

theorem header_write_length (network : Network) (header : Header) : (header.write network).length = 8 := by
  simp [Header.write, magic_number_length]

theorem header_body {network : Network} {buffer : Bytes} {header : Header} {stream : Bytes}
    (read : Header.read network buffer = some (header, stream)) : buffer.drop 8 = stream := by
  rw [((header_inverts network).exact buffer header stream read).2, List.drop_append_of_le_length (by rw [header_write_length]),
    List.drop_of_length_le (by rw [header_write_length])]
  rfl

theorem of_byte_kind (type : UInt8) (kind : Kind) (known : Kind.ofByte type = some kind) : type = kind.byte := by
  have found := List.find?_some known
  exact (of_decide_eq_true found).symm

theorem parsed_byte (byte : UInt8) (type : MessageType) (known : MessageType.parsed byte = some type) : byte = type.byte := by
  have found := List.find?_some known
  exact (of_decide_eq_true found).symm

theorem byte_parsed (message : Message) : MessageType.parsed message.type.byte = some message.type := by
  cases message <;> rfl

theorem endpoint_length (peer : Endpoint) : peer.serialize.length = 18 := by
  simp [Endpoint.serialize]

theorem endpoints_length (peers : List Endpoint) : (peers.flatMap Endpoint.serialize).length = 18 * peers.length := by
  induction peers with
  | nil => rfl
  | cons peer peers ih => rw [List.flatMap_cons, List.length_append, endpoint_length, ih, List.length_cons]; omega

theorem read_into_written (n w : Nat) (held x : BitVec w) (rest : Bytes) (width : w = 8 * n) :
    readInto n w held (wordBytes n x ++ rest) = (x, rest) := by
  have none : (wordBytes n held).drop (wordBytes n x ++ rest).length = [] := List.drop_of_length_le (by simp)
  rw [readInto, none, List.append_nil, List.take_left' (word_bytes_length n x), List.drop_left' (word_bytes_length n x),
    bytes_word_word_bytes n w x width]

theorem read_into_le_written (n w : Nat) (held x : BitVec w) (rest : Bytes) (width : w = 8 * n) :
    readIntoLE n w held (wordBytesLE n x ++ rest) = (x, rest) := by
  have none : (wordBytesLE n held).drop (wordBytesLE n x ++ rest).length = [] := List.drop_of_length_le (by simp)
  rw [readIntoLE, none, List.append_nil, List.take_left' (word_bytes_le_length n x),
    List.drop_left' (word_bytes_le_length n x), wordBytesLE, List.reverse_reverse, bytes_word_word_bytes n w x width]

theorem read_peers_written (locals : Locals) (peers : List Endpoint) (i : Nat) (rest : Bytes) :
    readPeers locals peers.length i (peers.flatMap Endpoint.serialize ++ rest) = (peers, rest) := by
  induction peers generalizing i with
  | nil => rfl
  | cons peer peers ih =>
      simp only [List.flatMap_cons, Endpoint.serialize, List.append_assoc, List.length_cons, readPeers,
        read_into_written, read_into_le_written]
      rw [ih (i + 1)]

theorem peers_of_bytes (rounds : Nat) (stream : Bytes) (enough : 18 * rounds ≤ stream.length) :
    ∃ (peers : List Endpoint) (rest : Bytes), peers.length = rounds ∧ stream = peers.flatMap Endpoint.serialize ++ rest := by
  induction rounds generalizing stream with
  | zero => exact ⟨[], stream, rfl, rfl⟩
  | succ rounds ih =>
      obtain ⟨peers, rest, length, same⟩ := ih (stream.drop 18) (by rw [List.length_drop]; omega)
      have first : ((stream.take 16)).length = 16 := List.length_take_of_le (by omega)
      have second : ((stream.drop 16).take 2).length = 2 := List.length_take_of_le (by rw [List.length_drop]; omega)
      have address := word_bytes_bytes_word 128 (stream.take 16) (by rw [first])
      have port := word_bytes_bytes_word 16 ((stream.drop 16).take 2).reverse (by rw [List.length_reverse, second])
      rw [first] at address
      rw [List.length_reverse, second] at port
      refine ⟨⟨bytesWord 128 (stream.take 16), bytesWord 16 ((stream.drop 16).take 2).reverse⟩ :: peers, rest,
        by rw [List.length_cons, length], ?_⟩
      rw [List.flatMap_cons, List.append_assoc, ← same, Endpoint.serialize, wordBytesLE, address, port, List.reverse_reverse,
        List.append_assoc, ← List.drop_drop (i := 2) (j := 16), List.take_append_drop, List.take_append_drop]

theorem read_peers_rest (locals : Locals) (rounds i : Nat) (stream : Bytes) :
    (readPeers locals rounds i stream).2 = stream.drop (18 * rounds) := by
  induction rounds generalizing i stream with
  | zero => rfl
  | succ rounds ih =>
      simp only [readPeers, ih, readInto, readIntoLE, List.drop_drop]
      congr 1
      omega

def Vote.fields (vote : Vote) : Account × BitVec 512 × BitVec 64 := (vote.account, vote.signature, vote.sequence)

def writeVoteFields (fields : Account × BitVec 512 × BitVec 64) : Bytes :=
  wordBytes 32 fields.1 ++ (wordBytes 64 fields.2.1 ++ wordBytesLE 8 fields.2.2)

theorem vote_fields_length (fields : Account × BitVec 512 × BitVec 64) : (writeVoteFields fields).length = 104 := by
  simp [writeVoteFields]

theorem serialize_typed (vote : Vote) : vote.serializeTyped = writeVoteFields vote.fields ++ vote.block.serialize := by
  simp only [Vote.serializeTyped, writeVoteFields, Vote.fields, List.append_assoc]

theorem vote_fields_inverts : Inverts readVoteFields writeVoteFields fun _ => True := by
  constructor
  · intro fields rest _
    simp [readVoteFields, writeVoteFields, read_word_written, read_word_le_written]
  · intro stream fields rest got
    simp only [readVoteFields, Option.bind_eq_bind, Option.bind_eq_some_iff, Prod.exists] at got
    obtain ⟨account, first, readAccount, signature, second, readSignature, sequence, third, readSequence, out⟩ := got
    have front := ((read_word_inverts 32 256 rfl).exact _ _ _ readAccount).2
    have middle := ((read_word_inverts 64 512 rfl).exact _ _ _ readSignature).2
    have back := ((read_word_le_inverts 8 64 rfl).exact _ _ _ readSequence).2
    obtain ⟨sameFields, sameRest⟩ := Prod.mk.inj (Option.some.inj out)
    refine ⟨trivial, ?_⟩
    rw [front, middle, back, ← sameFields, ← sameRest]
    simp only [writeVoteFields, List.append_assoc]

theorem vote_fields_short (stream : Bytes) : readVoteFields stream = none ↔ stream.length < 104 := by
  constructor
  · intro short
    by_contra long
    simp only [readVoteFields, Option.bind_eq_bind, readWord, readWordLE] at short
    simp only [if_pos (show 32 ≤ stream.length by omega), Option.bind_some, List.length_drop,
      if_pos (show 64 ≤ stream.length - 32 by omega), if_pos (show 8 ≤ stream.length - 32 - 64 by omega)] at short
    contradiction
  · intro short
    cases got : readVoteFields stream with
    | none => rfl
    | some out =>
        have same := (vote_fields_inverts.exact stream out.1 out.2 got).2
        rw [same, List.length_append, vote_fields_length] at short
        omega

def readVote (size : UInt8 × UInt8) (kind : Kind) (stream : Bytes) : Option (Vote × Bytes) := do
  let (fields, stream) ← readVoteFields stream
  let (block, stream) ← Block.deserialize size kind stream
  some (⟨fields.1, fields.2.2, block, fields.2.1⟩, stream)

theorem vote_inverts (size : UInt8 × UInt8) (kind : Kind) :
    Inverts (readVote size kind) Vote.serializeTyped fun vote => vote.block.kind = kind ∧ vote.block.Fits := by
  constructor
  · intro vote rest holds
    rw [readVote, serialize_typed, List.append_assoc, vote_fields_inverts.complete vote.fields _ trivial]
    simp [Vote.fields, (block_inverts size kind).complete vote.block rest holds]
  · intro stream vote rest got
    simp only [readVote, Option.bind_eq_bind, Option.bind_eq_some_iff] at got
    obtain ⟨⟨fields, first⟩, readFields, ⟨block, left⟩, readBlock, out⟩ := got
    have front := (vote_fields_inverts.exact _ _ _ readFields).2
    obtain ⟨holds, back⟩ := (block_inverts size kind).exact _ _ _ readBlock
    obtain ⟨sameVote, sameRest⟩ := Prod.mk.inj (Option.some.inj out)
    simp only at back
    rw [front, back, ← sameVote, ← sameRest, serialize_typed, List.append_assoc]
    exact ⟨holds, rfl⟩

theorem deserialize_vote_known (size : UInt8 × UInt8) (type : UInt8) (kind : Kind) (stream : Bytes)
    (known : Kind.ofByte type = some kind) :
    deserializeVote size type stream = .ok (readVote size kind stream) := by
  simp only [deserializeVote, readVote, deserializeBlockTyped, known, bind_ok]
  cases readVoteFields stream with
  | none => rfl
  | some out =>
      obtain ⟨fields, rest⟩ := out
      cases read : Block.deserialize size kind rest <;> simp [read]

theorem deserialize_vote_unknown (size : UInt8 × UInt8) (type : UInt8) (stream : Bytes) (unknown : Kind.ofByte type = none) :
    deserializeVote size type stream = if stream.length < 104 then .ok none else .error .abort := by
  cases got : readVoteFields stream with
  | none => rw [deserializeVote, got, if_pos ((vote_fields_short stream).mp got)]
  | some out =>
      have long : ¬ stream.length < 104 := fun short => by
        rw [(vote_fields_short stream).mpr short] at got
        contradiction
      rw [deserializeVote, got, if_neg long]
      simp [deserializeBlockTyped, unknown]

def readCarrier (size : UInt8 × UInt8) (type : MessageType) (kind : Kind) (header : Header) (stream : Bytes) :
    Option (Message × Bytes) :=
  match type with
  | .publish => (Block.deserialize size kind stream).map fun out => (.publish header out.1, out.2)
  | .confirmReq => (Block.deserialize size kind stream).map fun out => (.confirmReq header out.1, out.2)
  | .confirmAck => (readVote size kind stream).map fun out => (.confirmAck header out.1, out.2)
  | _ => none

structure Message.Carries (message : Message) (type : MessageType) (kind : Kind) (header : Header) : Prop where
  typed : message.type = type
  headed : message.header = header
  carried : ∃ block, message.block = some block ∧ block.kind = kind ∧ block.Fits

theorem carrier_inverts (size : UInt8 × UInt8) (type : MessageType) (kind : Kind) (header : Header) :
    Inverts (readCarrier size type kind header) Message.body fun message => message.Carries type kind header := by
  constructor
  · rintro message rest ⟨rfl, rfl, block, carried, holds⟩
    cases message with
    | keepalive message => cases carried
    | publish =>
        cases carried
        simp [readCarrier, Message.body, Message.type, Message.header, (block_inverts size kind).complete block rest holds]
    | confirmReq =>
        cases carried
        simp [readCarrier, Message.body, Message.type, Message.header, (block_inverts size kind).complete block rest holds]
    | confirmAck _ vote =>
        cases carried
        simp [readCarrier, Message.body, Message.type, Message.header, (vote_inverts size kind).complete vote rest holds]
  · intro stream message rest got
    cases type with
    | publish =>
        obtain ⟨⟨block, left⟩, read, out⟩ := Option.map_eq_some_iff.mp got
        obtain ⟨rfl, rfl⟩ := Prod.mk.inj out
        obtain ⟨holds, same⟩ := (block_inverts size kind).exact stream block left read
        exact ⟨⟨rfl, rfl, block, rfl, holds⟩, same⟩
    | confirmReq =>
        obtain ⟨⟨block, left⟩, read, out⟩ := Option.map_eq_some_iff.mp got
        obtain ⟨rfl, rfl⟩ := Prod.mk.inj out
        obtain ⟨holds, same⟩ := (block_inverts size kind).exact stream block left read
        exact ⟨⟨rfl, rfl, block, rfl, holds⟩, same⟩
    | confirmAck =>
        obtain ⟨⟨vote, left⟩, read, out⟩ := Option.map_eq_some_iff.mp got
        obtain ⟨rfl, rfl⟩ := Prod.mk.inj out
        obtain ⟨holds, same⟩ := (vote_inverts size kind).exact stream vote left read
        exact ⟨⟨rfl, rfl, vote.block, rfl, holds⟩, same⟩
    | _ => cases got

def readKeepalive (locals : Locals) (header : Header) (stream : Bytes) : Message × Bytes :=
  (.keepalive ⟨header, (readPeers locals 8 0 stream).1, eight_peers locals stream⟩, (readPeers locals 8 0 stream).2)

def readMessage (locals : Locals) (header : Header) (stream : Bytes) : Option (Message × Bytes) :=
  match MessageType.parsed header.type with
  | none => none
  | some .keepalive => some (readKeepalive locals header stream)
  | some type => (Kind.ofByte header.blockType).bind fun kind => readCarrier locals.size type kind header stream

def Header.Unreadable (header : Header) (stream : Bytes) : Prop :=
  Kind.ofByte header.blockType = none ∧
    (header.type = MessageType.publish.byte ∨ header.type = MessageType.confirmReq.byte ∨
      header.type = MessageType.confirmAck.byte ∧ 104 ≤ stream.length)

def Parser.settle (env : Env) (parser : Parser) : Option (Message × Bytes) → Parser
  | some (message, []) => if message.block.any (workValidate env) then { parser with insufficientWork := true }
    else parser.visit message
  | _ => { parser with error := true }

theorem settle_visited (env : Env) (parser : Parser) (found : Option (Message × Bytes)) (message : Message)
    (visited : (parser.settle env found).visited = parser.visited ++ [message]) : found = some (message, []) := by
  unfold Parser.settle at visited
  split at visited
  · split at visited
    · simp at visited
    · simpa [Parser.visit] using visited
  · simp at visited

theorem visit_worked_settle {α : Type} (env : Env) (parser : Parser) (found : Option (α × Bytes)) (block : α → Block)
    (make : α → Message) (carries : ∀ a, (make a).block = some (block a)) :
    parser.visitWorked env block make found = parser.settle env (found.map fun out => (make out.1, out.2)) := by
  cases found with
  | none => rfl
  | some out =>
      obtain ⟨a, rest⟩ := out
      cases rest with
      | nil => simp [Parser.settle, Parser.visitWorked, carries]
      | cons => rfl

section Parse

variable (env : Env) (locals : Locals) (parser : Parser) (buffer : Bytes) (header : Header) (stream : Bytes)
  (read : Header.read env.network buffer = some (header, stream))

include read

theorem parse_keepalive (typed : header.type = MessageType.keepalive.byte) :
    parser.deserializeKeepalive env locals buffer = .ok (parser.settle env (some (readKeepalive locals header stream))) := by
  simp only [Parser.deserializeKeepalive, read, require_some, bind_ok, ensure_true _ typed, readKeepalive]
  split
  · next ended => simp [Parser.settle, ended, Message.block]
  · next more =>
      obtain ⟨byte, rest, left⟩ := List.exists_cons_of_ne_nil more
      simp [Parser.settle, left]

theorem parse_block_message (type : MessageType) (make : Header → Block → Message) (kind : Kind) (typed : header.type = type.byte)
    (known : Kind.ofByte header.blockType = some kind) (carries : ∀ block, (make header block).block = some block) :
    parser.deserializeBlockMessage env locals type make buffer =
      .ok (parser.settle env ((Block.deserialize locals.size kind stream).map fun out => (make header out.1, out.2))) := by
  simp only [Parser.deserializeBlockMessage, read, require_some, bind_ok, ensure_true _ typed, deserializeBlockTyped, known]
  rw [visit_worked_settle env parser _ id (make header) carries]

theorem parse_block_unknown (type : MessageType) (make : Header → Block → Message) (typed : header.type = type.byte)
    (unknown : Kind.ofByte header.blockType = none) : parser.deserializeBlockMessage env locals type make buffer = .error .abort := by
  simp [Parser.deserializeBlockMessage, read, typed, deserializeBlockTyped, unknown]

theorem parse_confirm_ack (kind : Kind) (known : Kind.ofByte header.blockType = some kind) :
    parser.deserializeConfirmAck env locals buffer =
      .ok (parser.settle env ((readVote locals.size kind stream).map fun out => (.confirmAck header out.1, out.2))) := by
  simp only [Parser.deserializeConfirmAck, read, deserialize_vote_known _ _ _ _ known, bind_ok]
  rw [visit_worked_settle env parser _ Vote.block (.confirmAck header) fun _ => rfl]

theorem parse_confirm_ack_unknown (unknown : Kind.ofByte header.blockType = none) :
    parser.deserializeConfirmAck env locals buffer =
      if stream.length < 104 then .ok { parser with error := true } else .error .abort := by
  simp only [Parser.deserializeConfirmAck, read, deserialize_vote_unknown _ _ _ unknown]
  split <;> rfl

theorem parse_readable (readable : ¬ header.Unreadable stream) :
    parser.deserializeBuffer env locals buffer =
    .ok (({ parser with error := false } : Parser).settle env (readMessage locals header stream)) := by
  simp only [Parser.deserializeBuffer, read, readMessage]
  cases known : MessageType.parsed header.type with
  | none => rfl
  | some type =>
      have typed := parsed_byte header.type type known
      cases type with
      | keepalive => exact parse_keepalive env locals _ buffer header stream read typed
      | publish =>
          cases kinded : Kind.ofByte header.blockType with
          | none => exact absurd ⟨kinded, .inl typed⟩ readable
          | some kind =>
            exact parse_block_message env locals _ buffer header stream read .publish .publish kind typed kinded fun _ => rfl
      | confirmReq =>
          cases kinded : Kind.ofByte header.blockType with
          | none => exact absurd ⟨kinded, .inr (.inl typed)⟩ readable
          | some kind =>
            exact parse_block_message env locals _ buffer header stream read .confirmReq .confirmReq kind typed kinded fun _ => rfl
      | confirmAck =>
          cases kinded : Kind.ofByte header.blockType with
          | none =>
              have short : stream.length < 104 := by
                by_contra long
                exact readable ⟨kinded, .inr (.inr ⟨typed, by omega⟩)⟩
              exact (parse_confirm_ack_unknown env locals _ buffer header stream read kinded).trans (if_pos short)
          | some kind => exact parse_confirm_ack env locals _ buffer header stream read kind kinded
      | _ => simpa using List.mem_of_find?_eq_some known

theorem parse_unreadable (unreadable : header.Unreadable stream) : parser.deserializeBuffer env locals buffer = .error .abort := by
  obtain ⟨unknown, typed | typed | ⟨typed, long⟩⟩ := unreadable
  · have known : MessageType.parsed header.type = some .publish := by rw [typed]; rfl
    simp only [Parser.deserializeBuffer, read, known, Parser.deserializePublish]
    exact parse_block_unknown env locals _ buffer header stream read _ _ typed unknown
  · have known : MessageType.parsed header.type = some .confirmReq := by rw [typed]; rfl
    simp only [Parser.deserializeBuffer, read, known, Parser.deserializeConfirmReq]
    exact parse_block_unknown env locals _ buffer header stream read _ _ typed unknown
  · have known : MessageType.parsed header.type = some .confirmAck := by rw [typed]; rfl
    simp only [Parser.deserializeBuffer, read, known]
    exact (parse_confirm_ack_unknown env locals _ buffer header stream read unknown).trans (if_neg (by omega))

end Parse

theorem keepalive_readable (header : Header) (stream : Bytes) (typed : header.type = MessageType.keepalive.byte) :
    ¬ header.Unreadable stream := by
  rintro ⟨_, other | other | ⟨other, _⟩⟩
  all_goals
    rw [typed] at other
    exact absurd other (by decide)

theorem parse_no_header (env : Env) (locals : Locals) (parser : Parser) (buffer : Bytes)
    (read : Header.read env.network buffer = none) :
    parser.deserializeBuffer env locals buffer = .ok { parser with error := true } := by
  simp only [Parser.deserializeBuffer, read]

theorem parser_total_iff (env : Env) (buffer : Bytes) :
    (∀ locals parser, ∃ after, Parser.deserializeBuffer env locals parser buffer = .ok after) ↔
      ∀ header stream, Header.read env.network buffer = some (header, stream) → ¬ header.Unreadable stream := by
  constructor
  · intro total header stream read unreadable
    obtain ⟨after, returned⟩ := total ⟨(0, 0), fun _ => 0, fun _ => 0⟩ ⟨false, false, []⟩
    rw [parse_unreadable env _ _ buffer header stream read unreadable] at returned
    cases returned
  · intro readable locals parser
    cases read : Header.read env.network buffer with
    | none => exact ⟨_, parse_no_header env locals parser buffer read⟩
    | some out => exact ⟨_, parse_readable env locals parser buffer out.1 out.2 read (readable out.1 out.2 read)⟩

-- A datagram that ends inside the block that its header announces.
theorem parser_total_iff_cut :
    (∀ header stream, Header.read sampleEnv.network [0x52, 0x41, 5, 5, 1, 3, 0, 2, 9] = some (header, stream) →
    ¬ header.Unreadable stream) ∧
      ∀ locals parser, ∃ after, Parser.deserializeBuffer sampleEnv locals parser [0x52, 0x41, 5, 5, 1, 3, 0, 2, 9] = .ok after := by
  have readable : ∀ header stream, Header.read sampleEnv.network [0x52, 0x41, 5, 5, 1, 3, 0, 2, 9] = some (header, stream) →
      ¬ header.Unreadable stream := by
    intro header stream read unreadable
    have known : Header.read sampleEnv.network [0x52, 0x41, 5, 5, 1, 3, 0, 2, 9] = some (⟨5, 5, 1, 3, 0x200⟩, [9]) := by decide
    rw [known] at read
    cases read
    exact absurd unreadable.1 (by decide)
  exact ⟨readable, (parser_total_iff sampleEnv _).mpr readable⟩

-- A publish header whose extensions are zero names the block type `invalid`.
theorem parser_aborts : Parser.deserializeBuffer sampleEnv ⟨(0, 0), fun _ => 0, fun _ => 0⟩ ⟨false, false, []⟩
    [0x52, 0x41, 5, 5, 1, 3, 0, 0] = .error .abort := by
  have read : Header.read sampleEnv.network [0x52, 0x41, 5, 5, 1, 3, 0, 0] = some (⟨5, 5, 1, 3, 0⟩, []) := by decide
  exact parse_unreadable sampleEnv _ _ _ _ _ read ⟨by decide, .inl rfl⟩

theorem keepalive_full (header : Header) (stream : Bytes) (enough : 144 ≤ stream.length) :
    ∃ message rest, message.type = .keepalive ∧ message.header = header ∧ stream = message.body ++ rest ∧
      ∀ locals, readKeepalive locals header stream = (message, rest) := by
  obtain ⟨peers, rest, eight, same⟩ := peers_of_bytes 8 stream enough
  refine ⟨.keepalive ⟨header, peers, eight⟩, rest, rfl, rfl, same, fun locals => ?_⟩
  have written := read_peers_written locals peers 0 rest
  rw [eight, ← same] at written
  simp only [readKeepalive, written]

theorem keepalive_short (locals : Locals) (header : Header) (stream : Bytes) (short : stream.length < 144) :
    (readKeepalive locals header stream).2 = [] := by
  rw [readKeepalive, read_peers_rest, List.drop_of_length_le (by omega)]

theorem keepalive_body_length (message : Keepalive) : (Message.keepalive message).body.length = 144 := by
  rw [Message.body, endpoints_length, message.eight]

theorem message_serialized (network : Network) (message : Message)
    (known : ∀ block, message.block = some block → (Kind.ofByte message.header.blockType).isSome = true) :
    message.serialize network = .ok (message.header.write network ++ message.body) := by
  cases message with
  | confirmAck header vote =>
      have named : (Kind.ofByte header.blockType).isSome = true := known vote.block rfl
      simp only [Message.serialize, ensure_true _ named, bind_ok]
  | _ => rfl

theorem serialized_body (network : Network) (message : Message) :
    (message.header.write network ++ message.body).drop 8 = message.body :=
  List.drop_left' (header_write_length network message.header)

theorem read_message_agree (locals locals' : Locals) (header : Header) (stream : Bytes)
    (full : header.type = MessageType.keepalive.byte → 144 ≤ stream.length) :
    readMessage locals header stream = readMessage locals' header stream := by
  unfold readMessage
  split
  · rfl
  · next known =>
      obtain ⟨message, rest, _, _, _, same⟩ := keepalive_full header stream (full (parsed_byte _ _ known))
      rw [same locals, same locals']
  · cases Kind.ofByte header.blockType with
    | none => rfl
    | some kind => exact inverts_agree (carrier_inverts locals.size _ kind header) (carrier_inverts locals'.size _ kind header) stream

theorem read_message_exact (network : Network) (locals : Locals) (header : Header) (stream : Bytes) (message : Message)
    (full : header.type = MessageType.keepalive.byte → 144 ≤ stream.length)
    (got : readMessage locals header stream = some (message, [])) :
    message.serialize network = .ok (message.header.write network ++ stream) := by
  unfold readMessage at got
  split at got
  · cases got
  · next known =>
      obtain ⟨found, rest, typed, _, same, read⟩ := keepalive_full header stream (full (parsed_byte _ _ known))
      obtain ⟨rfl, rfl⟩ := Prod.mk.inj ((read locals).symm.trans (Option.some.inj got))
      rw [List.append_nil] at same
      rw [same]
      exact message_serialized network found fun block carried => by cases found <;> cases typed; cases carried
  · obtain ⟨kind, known, read⟩ := Option.bind_eq_some_iff.mp got
    obtain ⟨carries, same⟩ := (carrier_inverts locals.size _ kind header).exact stream message [] read
    rw [List.append_nil] at same
    rw [same]
    exact message_serialized network message fun block _ => by rw [carries.headed, known]; rfl

-- The buffers that do not cut a keepalive short.
section Full

variable (env : Env) (buffer : Bytes) (full : ∀ header stream, Header.read env.network buffer = some (header, stream) →
  header.type = MessageType.keepalive.byte → 144 ≤ stream.length)
include full

theorem parse_full_agree (locals locals' : Locals) (parser : Parser) :
    parser.deserializeBuffer env locals buffer = parser.deserializeBuffer env locals' buffer := by
  cases read : Header.read env.network buffer with
  | none => rw [parse_no_header env locals parser buffer read, parse_no_header env locals' parser buffer read]
  | some out =>
      obtain ⟨header, stream⟩ := out
      by_cases unreadable : header.Unreadable stream
      · rw [parse_unreadable env locals parser buffer header stream read unreadable,
          parse_unreadable env locals' parser buffer header stream read unreadable]
      · rw [parse_readable env locals parser buffer header stream read unreadable,
          parse_readable env locals' parser buffer header stream read unreadable,
          read_message_agree locals locals' header stream (full header stream read)]

theorem parse_full_exact (locals : Locals) (parser after : Parser) (message : Message)
    (returned : parser.deserializeBuffer env locals buffer = .ok after) (visited : after.visited = parser.visited ++ [message]) :
    ∃ bytes, message.serialize env.network = .ok bytes ∧ buffer.drop 8 = bytes.drop 8 := by
  cases read : Header.read env.network buffer with
  | none =>
      rw [parse_no_header env locals parser buffer read] at returned
      cases returned
      simp at visited
  | some out =>
      obtain ⟨header, stream⟩ := out
      by_cases unreadable : header.Unreadable stream
      · rw [parse_unreadable env locals parser buffer header stream read unreadable] at returned
        cases returned
      · rw [parse_readable env locals parser buffer header stream read unreadable] at returned
        cases returned
        have got := settle_visited env { parser with error := false } _ message visited
        refine ⟨_, read_message_exact env.network locals header stream message (full header stream read) got, ?_⟩
        rw [header_body read, List.drop_left' (header_write_length _ _)]

end Full

-- The others are delivered with eight peers, which take more bytes than there were.
theorem parse_short_keepalive (env : Env) (locals : Locals) (parser : Parser) (buffer : Bytes) (header : Header) (stream : Bytes)
    (read : Header.read env.network buffer = some (header, stream)) (typed : header.type = MessageType.keepalive.byte)
    (short : stream.length < 144) : ∃ message : Keepalive,
      parser.deserializeBuffer env locals buffer =
      .ok { parser with error := false, visited := parser.visited ++ [.keepalive message] } := by
  have known : MessageType.parsed header.type = some .keepalive := by rw [typed]; rfl
  have ended := keepalive_short locals header stream short
  rw [parse_readable env locals parser buffer header stream read (keepalive_readable header stream typed)]
  simp only [readMessage, known]
  rw [← Prod.eta (readKeepalive locals header stream), ended]
  exact ⟨_, rfl⟩

theorem parser_exact_iff (env : Env) (buffer : Bytes) :
    ((∀ locals parser after message, Parser.deserializeBuffer env locals parser buffer = .ok after →
        after.visited = parser.visited ++ [message] →
        ∃ bytes, message.serialize env.network = .ok bytes ∧ buffer.drop 8 = bytes.drop 8) ∧
      ∀ locals locals' parser, Parser.deserializeBuffer env locals parser buffer = Parser.deserializeBuffer env locals' parser buffer) ↔
      ∀ header stream, Header.read env.network buffer = some (header, stream) → header.type = MessageType.keepalive.byte →
        144 ≤ stream.length := by
  constructor
  · rintro ⟨exact, _⟩ header stream read typed
    by_contra short
    obtain ⟨message, returned⟩ := parse_short_keepalive env ⟨(0, 0), fun _ => 0, fun _ => 0⟩
      ⟨false, false, []⟩ buffer header stream read typed
      (by omega)
    obtain ⟨bytes, serialized, same⟩ := exact _ _ _ (.keepalive message) returned rfl
    rw [message_serialized _ _ (fun _ carried => by cases carried)] at serialized
    rw [← Except.ok.inj serialized, serialized_body, header_body read] at same
    rw [same, keepalive_body_length] at short
    omega
  · exact fun full => ⟨parse_full_exact env buffer full, parse_full_agree env buffer full⟩

-- A keepalive with all its bytes.
theorem parser_exact_iff_full :
    let buffer := [0x52, 0x41, 5, 5, 1, 2, 0, 0] ++ List.replicate 144 7
    ∀ locals locals' parser,
      Parser.deserializeBuffer sampleEnv locals parser buffer = Parser.deserializeBuffer sampleEnv locals' parser buffer := by
  refine ((parser_exact_iff sampleEnv _).mpr ?_).2
  intro header stream read _
  rw [← header_body read]
  simp

-- The header of a keepalive and nothing else: eight peers are delivered, out of memory that nothing was written to.
theorem parser_delivers_memory :
    let buffer := [0x52, 0x41, 5, 5, 1, 2, 0, 0]
    ∃ message message', message ≠ message' ∧
      Parser.deserializeBuffer sampleEnv ⟨(0, 0), fun _ => 0, fun _ => 0⟩ ⟨false, false, []⟩ buffer = .ok ⟨false, false, [message]⟩ ∧
      Parser.deserializeBuffer sampleEnv ⟨(0, 0), fun _ => 1, fun _ => 7⟩ ⟨false, false, []⟩ buffer = .ok ⟨false, false, [message']⟩ ∧
      ∃ bytes, message.serialize sampleEnv.network = .ok bytes ∧ bytes.drop 8 ≠ buffer.drop 8 := by
  refine ⟨.keepalive ⟨⟨5, 5, 1, 2, 0⟩, List.replicate 8 ⟨0, 0⟩, rfl⟩,
    .keepalive ⟨⟨5, 5, 1, 2, 0⟩, List.replicate 8 ⟨1, 7⟩, rfl⟩,
    by decide, by decide +kernel, by decide +kernel, _, rfl, by decide +kernel⟩

theorem formed_serialized (network : Network) (message : Message) (formed : message.Formed) :
    message.serialize network = .ok (message.header.write network ++ message.body) := by
  refine message_serialized network message fun block carried => ?_
  rw [formed.kinded block carried, kind_of_byte]
  rfl

theorem formed_readable (message : Message) (stream : Bytes) (formed : message.Formed) : ¬ message.header.Unreadable stream := by
  cases carried : message.block with
  | none =>
      refine keepalive_readable _ stream ?_
      rw [formed.typed]
      cases message <;> first | rfl | cases carried
  | some block =>
      rintro ⟨unknown, _⟩
      rw [formed.kinded block carried, kind_of_byte] at unknown
      cases unknown

theorem read_message_carrier (locals : Locals) (header : Header) (stream : Bytes) (type : MessageType) (kind : Kind)
    (known : MessageType.parsed header.type = some type) (other : type ≠ .keepalive) (kinded : header.blockType = kind.byte) :
    readMessage locals header stream = readCarrier locals.size type kind header stream := by
  simp only [readMessage, known, kinded, kind_of_byte, Option.bind_some]

theorem formed_read (locals : Locals) (message : Message) (formed : message.Formed)
    (fits : ∀ block, message.block = some block → block.Fits) :
    readMessage locals message.header message.body = some (message, []) := by
  have known : MessageType.parsed message.header.type = some message.type := by rw [formed.typed, byte_parsed]
  cases carried : message.block with
  | none =>
      cases message with
      | keepalive message =>
          have written := read_peers_written locals message.peers 0 []
          rw [message.eight, List.append_nil] at written
          simp only [Message.header, Message.type] at known
          simp only [readMessage, Message.header, known, readKeepalive, Message.body, written]
      | _ => cases carried
  | some block =>
      have other : message.type ≠ .keepalive := by
        intro keepalive
        cases message with
        | keepalive => cases carried
        | _ => cases keepalive
      rw [read_message_carrier locals _ _ message.type block.kind known other (formed.kinded block carried)]
      have written := (carrier_inverts locals.size message.type block.kind message.header).complete message []
        ⟨rfl, rfl, block, carried, rfl, fits block carried⟩
      rwa [List.append_nil] at written

theorem block_stream_written (size : UInt8 × UInt8) (block : Block) (fits : block.Fits) (rest : Bytes) :
    deserializeBlockStream size (serializeBlock block ++ rest) = .ok (some (block, rest)) := by
  simp only [serializeBlock, List.cons_append, deserializeBlockStream, deserializeBlockTyped, kind_of_byte]
  rw [(block_inverts size block.kind).complete block rest ⟨rfl, fits⟩]

theorem block_stream_cut (size : UInt8 × UInt8) (block : Block) (fits : block.Fits) (front missing : Bytes)
    (whole : front ++ missing = serializeBlock block) (nonempty : missing ≠ []) : deserializeBlockStream size front = .ok none := by
  cases front with
  | nil => rfl
  | cons type front =>
      obtain ⟨rfl, tail⟩ := List.cons.inj whole
      have cut := inverts_cut (block_inverts size block.kind) block front missing tail nonempty ⟨rfl, fits⟩
      simp only [deserializeBlockStream, deserializeBlockTyped, kind_of_byte, cut]

theorem wire_round_trip (env : Env) :
    (∀ message : Message, message.Formed → (∀ block, message.block = some block → block.Fits ∧ workValidate env block = false) →
      ∃ bytes, message.serialize env.network = .ok bytes ∧
        ∀ locals parser, Parser.deserializeBuffer env locals parser bytes =
          .ok { parser with error := false, visited := parser.visited ++ [message] }) ∧
    ∀ block : Block, block.Fits → ∀ size,
      (∀ rest, deserializeBlockStream size (serializeBlock block ++ rest) = .ok (some (block, rest))) ∧
        ∀ front missing, front ++ missing = serializeBlock block → missing ≠ [] → deserializeBlockStream size front = .ok none := by
  constructor
  · intro message formed carried
    refine ⟨_, formed_serialized env.network message formed, fun locals parser => ?_⟩
    have read := (header_inverts env.network).complete message.header message.body trivial
    have worked : message.block.any (workValidate env) = false := by
      cases held : message.block with
      | none => rfl
      | some block => exact (carried block held).2
    rw [parse_readable env locals parser _ _ _ read (formed_readable message _ formed),
      formed_read locals message formed fun block held => (carried block held).1]
    simp [Parser.settle, worked, Parser.visit]
  · intro block fits size
    exact ⟨block_stream_written size block fits, block_stream_cut size block fits⟩

-- A published block that has work, and a cut through its signature.
theorem wire_round_trip_publish :
    let block : Block := ⟨.sendBlock 3 4 5, 6, 0xff⟩
    ∃ bytes, (Message.ofPublish block).serialize sampleEnv.network = .ok bytes ∧ bytes.length = 160 ∧
      (∀ locals parser, Parser.deserializeBuffer sampleEnv locals parser bytes =
        .ok { parser with error := false, visited := parser.visited ++ [Message.ofPublish block] }) ∧
      ∀ size, deserializeBlockStream size ((serializeBlock block).take 100) = .ok none := by
  have formed : (Message.ofPublish ⟨.sendBlock 3 4 5, 6, 0xff⟩).Formed := ⟨rfl, fun _ carried => by cases carried; decide⟩
  have carried : ∀ block, (Message.ofPublish ⟨.sendBlock 3 4 5, 6, 0xff⟩).block = some block → block.Fits ∧
    workValidate sampleEnv block = false := by
    intro block carried
    cases carried
    exact ⟨trivial, by decide +kernel⟩
  obtain ⟨bytes, serialized, read⟩ := (wire_round_trip sampleEnv).1 _ formed carried
  refine ⟨bytes, serialized, ?_, read, fun size => ?_⟩
  · rw [formed_serialized _ _ formed] at serialized
    rw [← Except.ok.inj serialized]
    decide +kernel
  · exact ((wire_round_trip sampleEnv).2 ⟨.sendBlock 3 4 5, 6, 0xff⟩ trivial size).2 _
      ((serializeBlock ⟨.sendBlock 3 4 5, 6, 0xff⟩).drop 100)
      (List.take_append_drop 100 _) (by decide +kernel)

end Rai
