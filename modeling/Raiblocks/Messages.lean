import Raiblocks.Processor
import Raiblocks.Votes

set_option autoImplicit false

namespace Rai

open Kit

inductive MessageType where
  | invalid
  | notAType
  | keepalive
  | publish
  | confirmReq
  | confirmAck
  | bulkPull
  | bulkPush
  | frontierReq
  | bulkPullBlocks
deriving DecidableEq, Repr

def MessageType.byte : MessageType → UInt8
  | .invalid => 0
  | .notAType => 1
  | .keepalive => 2
  | .publish => 3
  | .confirmReq => 4
  | .confirmAck => 5
  | .bulkPull => 6
  | .bulkPush => 7
  | .frontierReq => 8
  | .bulkPullBlocks => 9

-- The four types that `message_parser` knows; every other byte is an error.
def MessageType.parsed (byte : UInt8) : Option MessageType :=
  [MessageType.keepalive, .publish, .confirmReq, .confirmAck].find? fun type => type.byte = byte

def magicNumber : Network → Bytes
  | .test => [0x52, 0x41]
  | .beta => [0x52, 0x42]
  | .live => [0x52, 0x43]

-- `type` is the byte behind the enumeration: a header that was read may hold any value.
structure Header where
  versionMax : UInt8
  versionUsing : UInt8
  versionMin : UInt8
  type : UInt8
  extensions : BitVec 16
deriving DecidableEq, Repr

namespace Header

def start (type : MessageType) : Header := ⟨5, 5, 1, type.byte, 0⟩

def blockType (header : Header) : UInt8 := UInt8.ofNat ((header.extensions &&& 0x0f00) >>> 8).toNat

def blockTypeSet (header : Header) (kind : Kind) : Header :=
  { header with extensions := (header.extensions &&& ~~~0x0f00#16) ||| (BitVec.ofNat 16 kind.byte.toNat <<< 8) }

def write (network : Network) (header : Header) : Bytes :=
  magicNumber network ++ (header.versionMax :: header.versionUsing :: header.versionMin :: header.type :: wordBytesLE 2
    header.extensions)

def read (network : Network) : Bytes → Option (Header × Bytes)
  | c1 :: c2 :: versionMax :: versionUsing :: versionMin :: type :: stream =>
      if [c1, c2] = magicNumber network then do
        let (extensions, stream) ← readWordLE 2 16 stream
        some (⟨versionMax, versionUsing, versionMin, type, extensions⟩, stream)
      else none
  | _ => none

end Header

-- The scope of a link-local address is not part of the message.
structure Endpoint where
  address : BitVec 128
  port : BitVec 16
deriving DecidableEq, Repr

def Endpoint.serialize (peer : Endpoint) : Bytes := wordBytes 16 peer.address ++ wordBytesLE 2 peer.port

structure Keepalive where
  header : Header
  peers : List Endpoint
  eight : peers.length = 8
deriving DecidableEq

inductive Message where
  | keepalive (message : Keepalive)
  | publish (header : Header) (block : Block)
  | confirmReq (header : Header) (block : Block)
  | confirmAck (header : Header) (vote : Vote)
deriving DecidableEq

-- What the uninitialised locals of the readers hold: the two length bytes of
-- `read_bytes`, and the address and port of each round of the keepalive loop.
structure Locals where
  size : UInt8 × UInt8
  address : Nat → BitVec 128
  port : Nat → BitVec 16

-- `sgetn` overwrites as much of the value as the stream has left.
def readInto (n w : Nat) (held : BitVec w) (stream : Bytes) : BitVec w × Bytes :=
  (bytesWord w (stream.take n ++ (wordBytes n held).drop stream.length), stream.drop n)

def readIntoLE (n w : Nat) (held : BitVec w) (stream : Bytes) : BitVec w × Bytes :=
  (bytesWord w (stream.take n ++ (wordBytesLE n held).drop stream.length).reverse, stream.drop n)

-- The loop of `keepalive::deserialize`, which does not look at what `read` returns.
def readPeers (locals : Locals) : Nat → Nat → Bytes → List Endpoint × Bytes
  | 0, _, stream => ([], stream)
  | rounds + 1, i, stream =>
      let (address, stream) := readInto 16 128 (locals.address i) stream
      let (port, stream) := readIntoLE 2 16 (locals.port i) stream
      let (peers, stream) := readPeers locals rounds (i + 1) stream
      (⟨address, port⟩ :: peers, stream)

theorem read_peers_length (locals : Locals) (rounds i : Nat) (stream : Bytes) :
    (readPeers locals rounds i stream).1.length = rounds := by
  induction rounds generalizing i stream with
  | zero => rfl
  | succ rounds ih => simp [readPeers, ih]

theorem eight_peers (locals : Locals) (stream : Bytes) : (readPeers locals 8 0 stream).1.length = 8 :=
  read_peers_length locals 8 0 stream

-- `deserialize_block` with a type from the header, and with one from the stream.
def deserializeBlockTyped (size : UInt8 × UInt8) (type : UInt8) (stream : Bytes) : Except Fault (Option (Block × Bytes)) :=
  match Kind.ofByte type with
  | some kind => .ok (Block.deserialize size kind stream)
  | none => .error .abort

def deserializeBlockStream (size : UInt8 × UInt8) : Bytes → Except Fault (Option (Block × Bytes))
  | [] => .ok none
  | type :: stream => deserializeBlockTyped size type stream

-- `vote::serialize` with a block type: the type is in the header and not in the vote.
def Vote.serializeTyped (vote : Vote) : Bytes :=
  wordBytes 32 vote.account ++ (wordBytes 64 vote.signature ++ (wordBytesLE 8 vote.sequence ++ vote.block.serialize))

def readVoteFields (stream : Bytes) : Option ((Account × BitVec 512 × BitVec 64) × Bytes) := do
  let (account, stream) ← readWord 32 256 stream
  let (signature, stream) ← readWord 64 512 stream
  let (sequence, stream) ← readWordLE 8 64 stream
  some ((account, signature, sequence), stream)

-- `vote::vote` looks at the type only after the other fields were read.
def deserializeVote (size : UInt8 × UInt8) (type : UInt8) (stream : Bytes) : Except Fault (Option (Vote × Bytes)) :=
  match readVoteFields stream with
  | none => .ok none
  | some ((account, signature, sequence), stream) => do
      let found ← deserializeBlockTyped size type stream
      .ok (found.map fun out => (⟨account, sequence, out.1, signature⟩, out.2))

def publishThreshold : Network → BitVec 64
  | .test => 0xff00000000000000
  | .beta => 0xffffffc000000000
  | .live => 0xffffffc000000000

-- True for work that is not good enough, as in the source.
def workValidate (env : Env) (block : Block) : Bool := decide (workValue env block.root block.work < publishThreshold env.network)

namespace Message

def header : Message → Header
  | .keepalive message => message.header
  | .publish header _ => header
  | .confirmReq header _ => header
  | .confirmAck header _ => header

def block : Message → Option Block
  | .keepalive _ => none
  | .publish _ block => some block
  | .confirmReq _ block => some block
  | .confirmAck _ vote => some vote.block

def body : Message → Bytes
  | .keepalive message => message.peers.flatMap Endpoint.serialize
  | .publish _ block => block.serialize
  | .confirmReq _ block => block.serialize
  | .confirmAck _ vote => vote.serializeTyped

def serialize (network : Network) (message : Message) : Except Fault Bytes := do
  match message with
  | .confirmAck header _ => ensure ((Kind.ofByte header.blockType).isSome = true)
  | _ => .ok ()
  .ok (message.header.write network ++ message.body)

def type : Message → MessageType
  | .keepalive _ => .keepalive
  | .publish .. => .publish
  | .confirmReq .. => .confirmReq
  | .confirmAck .. => .confirmAck

def ofPublish (block : Block) : Message := .publish ((Header.start .publish).blockTypeSet block.kind) block

-- The header agrees with the message. Versions and the other extension bits are free.
structure Formed (message : Message) : Prop where
  typed : message.header.type = message.type.byte
  kinded : ∀ block, message.block = some block → message.header.blockType = block.kind.byte

end Message

-- `visited` lists the calls of the visitor's methods.
structure Parser where
  error : Bool
  insufficientWork : Bool
  visited : List Message
deriving DecidableEq

namespace Parser

def visit (parser : Parser) (message : Message) : Parser := { parser with visited := parser.visited ++ [message] }

-- The end of the three functions that read a block: the message is visited if nothing
-- follows it and its work is good.
def visitWorked {α : Type} (env : Env) (parser : Parser) (block : α → Block) (make : α → Message) : Option (α × Bytes) → Parser
  | some (a, []) => if workValidate env (block a) then { parser with insufficientWork := true } else parser.visit (make a)
  | _ => { parser with error := true }

def deserializeKeepalive (env : Env) (locals : Locals) (parser : Parser) (buffer : Bytes) : Except Fault Parser := do
  let (header, stream) ← require (Header.read env.network buffer)
  ensure (header.type = MessageType.keepalive.byte)
  let peers := (readPeers locals 8 0 stream).1
  if (readPeers locals 8 0 stream).2 = [] then .ok (parser.visit (.keepalive ⟨header, peers, eight_peers locals stream⟩))
  else .ok { parser with error := true }

-- `deserialize_publish` and `deserialize_confirm_req` differ in the type they assert and the method they call.
def deserializeBlockMessage (env : Env) (locals : Locals) (type : MessageType) (make : Header → Block → Message) (parser : Parser)
    (buffer : Bytes) : Except Fault Parser := do
  let (header, stream) ← require (Header.read env.network buffer)
  ensure (header.type = type.byte)
  let found ← deserializeBlockTyped locals.size header.blockType stream
  .ok (parser.visitWorked env id (make header) found)

def deserializePublish (env : Env) (locals : Locals) : Parser → Bytes → Except Fault Parser :=
  deserializeBlockMessage env locals .publish .publish

def deserializeConfirmReq (env : Env) (locals : Locals) : Parser → Bytes → Except Fault Parser :=
  deserializeBlockMessage env locals .confirmReq .confirmReq

def deserializeConfirmAck (env : Env) (locals : Locals) (parser : Parser) (buffer : Bytes) : Except Fault Parser :=
  match Header.read env.network buffer with
  | none => .ok { parser with error := true }
  | some (header, stream) => do
      let found ← deserializeVote locals.size header.blockType stream
      .ok (parser.visitWorked env Vote.block (.confirmAck header) found)

-- `error` is cleared at the start, `insufficient_work` is not.
def deserializeBuffer (env : Env) (locals : Locals) (parser : Parser) (buffer : Bytes) : Except Fault Parser :=
  let parser := { parser with error := false }
  match Header.read env.network buffer with
  | none => .ok { parser with error := true }
  | some (header, _) =>
      match MessageType.parsed header.type with
      | some .keepalive => deserializeKeepalive env locals parser buffer
      | some .publish => deserializePublish env locals parser buffer
      | some .confirmReq => deserializeConfirmReq env locals parser buffer
      | some .confirmAck => deserializeConfirmAck env locals parser buffer
      | _ => .ok { parser with error := true }

end Parser

end Rai
