import Raiblocks.Block
import Raiblocks.Kit.Codec

set_option autoImplicit false

namespace Rai

open Kit

-- `sputc` keeps the low byte, so the two length bytes hold the size modulo 65536.
def writeBytes (bytes : Bytes) : Bytes :=
  UInt8.ofNat (bytes.length % 256) :: UInt8.ofNat (bytes.length / 256 % 256) :: bytes

-- `sgetn` of one byte leaves the local untouched at the end of the stream.
def getByte (uninit : UInt8) : Bytes → UInt8 × Bytes
  | [] => (uninit, [])
  | byte :: rest => (byte, rest)

def readBytes (uninit : UInt8 × UInt8) (stream : Bytes) : Option (Bytes × Bytes) :=
  let (c1, stream) := getByte uninit.1 stream
  let (c2, stream) := getByte uninit.2 stream
  let size := c1.toNat + c2.toNat * 256
  if size ≤ stream.length then some (stream.take size, stream.drop size) else none

def Hashables.serialize : Hashables → Bytes
  | .sendBlock previous destination balance => wordBytes 32 previous ++ (wordBytes 32 destination ++ wordBytes 16 balance)
  | .receiveBlock previous source => wordBytes 32 previous ++ wordBytes 32 source
  | .openBlock source representative account =>
      wordBytes 32 source ++ (wordBytes 32 representative ++ wordBytes 32 account)
  | .changeBlock previous representative => wordBytes 32 previous ++ wordBytes 32 representative
  | .sendBlockV2 previous destination action => wordBytes 32 previous ++ (wordBytes 32 destination ++ writeBytes action)

def Block.serialize (block : Block) : Bytes :=
  block.hashables.serialize ++ (wordBytes 64 block.signature ++ wordBytesLE 8 block.work)

def Hashables.deserialize (uninit : UInt8 × UInt8) (kind : Kind) (stream : Bytes) : Option (Hashables × Bytes) :=
  match kind with
  | .sendBlock => do
      let (previous, stream) ← readWord 32 256 stream
      let (destination, stream) ← readWord 32 256 stream
      let (balance, stream) ← readWord 16 128 stream
      some (.sendBlock previous destination balance, stream)
  | .receiveBlock => do
      let (previous, stream) ← readWord 32 256 stream
      let (source, stream) ← readWord 32 256 stream
      some (.receiveBlock previous source, stream)
  | .openBlock => do
      let (source, stream) ← readWord 32 256 stream
      let (representative, stream) ← readWord 32 256 stream
      let (account, stream) ← readWord 32 256 stream
      some (.openBlock source representative account, stream)
  | .changeBlock => do
      let (previous, stream) ← readWord 32 256 stream
      let (representative, stream) ← readWord 32 256 stream
      some (.changeBlock previous representative, stream)
  | .sendBlockV2 => do
      let (previous, stream) ← readWord 32 256 stream
      let (destination, stream) ← readWord 32 256 stream
      let (action, stream) ← readBytes uninit stream
      some (.sendBlockV2 previous destination action, stream)

def Block.deserialize (uninit : UInt8 × UInt8) (kind : Kind) (stream : Bytes) : Option (Block × Bytes) := do
  let (hashables, stream) ← Hashables.deserialize uninit kind stream
  let (signature, stream) ← readWord 64 512 stream
  let (work, stream) ← readWordLE 8 64 stream
  some (⟨hashables, signature, work⟩, stream)

-- The action's length fits the two length bytes; the other kinds have no such field.
def Hashables.Fits : Hashables → Prop
  | .sendBlockV2 _ _ action => action.length < 65536
  | _ => True

instance (hashables : Hashables) : Decidable hashables.Fits := by
  cases hashables <;> unfold Hashables.Fits <;> infer_instance

def Block.Fits (block : Block) : Prop := block.hashables.Fits

instance (block : Block) : Decidable block.Fits := inferInstanceAs (Decidable block.hashables.Fits)

theorem legacy_fits (block : Block) (legacy : block.kind ≠ .sendBlockV2) : block.Fits := by
  obtain ⟨hashables, signature, work⟩ := block
  cases hashables with
  | sendBlockV2 previous destination action => exact absurd rfl legacy
  | _ => trivial

theorem length_bytes (size : Nat) :
    (UInt8.ofNat (size % 256)).toNat + (UInt8.ofNat (size / 256 % 256)).toNat * 256 = size % 65536 := by
  have low : (UInt8.ofNat (size % 256)).toNat = size % 256 := UInt8.toNat_ofNat_of_lt' (Nat.mod_lt size (by decide))
  have high : (UInt8.ofNat (size / 256 % 256)).toNat = size / 256 % 256 :=
    UInt8.toNat_ofNat_of_lt' (Nat.mod_lt (size / 256) (by decide))
  rw [low, high]
  omega

theorem read_bytes_written (uninit : UInt8 × UInt8) (action rest : Bytes) :
    readBytes uninit (writeBytes action ++ rest) =
      some ((action ++ rest).take (action.length % 65536), (action ++ rest).drop (action.length % 65536)) := by
  have enough : action.length % 65536 ≤ (action ++ rest).length := by
    have bound := Nat.mod_le action.length 65536
    rw [List.length_append]
    omega
  simp only [readBytes, writeBytes, List.cons_append, getByte, length_bytes]
  rw [if_pos enough]

theorem deserialize_hashables_written (uninit : UInt8 × UInt8) (hashables : Hashables) (rest : Bytes) (fits : hashables.Fits) :
    Hashables.deserialize uninit hashables.kind (hashables.serialize ++ rest) = some (hashables, rest) := by
  cases hashables with
  | sendBlockV2 previous destination action =>
      have size : action.length % 65536 = action.length := Nat.mod_eq_of_lt fits
      simp [Hashables.deserialize, Hashables.serialize, read_word_written, read_bytes_written, size]
  | _ => simp [Hashables.deserialize, Hashables.serialize, read_word_written]

theorem deserialize_written (uninit : UInt8 × UInt8) (block : Block) (rest : Bytes) (fits : block.Fits) :
    Block.deserialize uninit block.kind (block.serialize ++ rest) = some (block, rest) := by
  simp only [Block.deserialize, Block.serialize, Block.kind, List.append_assoc]
  rw [deserialize_hashables_written uninit block.hashables _ fits]
  simp [read_word_written, read_word_le_written]

theorem read_bytes_exact (uninit : UInt8 × UInt8) (stream bytes rest : Bytes) (got : readBytes uninit stream = some (bytes, rest)) :
    bytes.length < 65536 ∧ (stream = writeBytes bytes ++ rest ∨ rest = []) := by
  have taken : ∀ (c1 c2 : UInt8) (tail : Bytes), (if c1.toNat + c2.toNat * 256 ≤ tail.length then
      some (tail.take (c1.toNat + c2.toNat * 256), tail.drop (c1.toNat + c2.toNat * 256)) else none) = some (bytes, rest) →
      bytes.length = c1.toNat + c2.toNat * 256 ∧ tail = bytes ++ rest := by
    intro c1 c2 tail same
    split at same
    · next enough =>
        obtain ⟨rfl, rfl⟩ := Prod.mk.inj (Option.some.inj same)
        exact ⟨List.length_take_of_le enough, (List.take_append_drop _ _).symm⟩
    · cases same
  have bounded : ∀ c1 c2 : UInt8, c1.toNat + c2.toNat * 256 < 65536 := by
    intro c1 c2
    have low := c1.toNat_lt
    have high := c2.toNat_lt
    omega
  match stream, got with
  | [], got =>
      obtain ⟨size, split⟩ := taken _ _ [] got
      exact ⟨size ▸ bounded _ _, Or.inr (List.append_eq_nil_iff.mp split.symm).2⟩
  | [c1], got =>
      obtain ⟨size, split⟩ := taken _ _ [] got
      exact ⟨size ▸ bounded _ _, Or.inr (List.append_eq_nil_iff.mp split.symm).2⟩
  | c1 :: c2 :: tail, got =>
      obtain ⟨size, split⟩ := taken c1 c2 tail got
      have low : UInt8.ofNat (bytes.length % 256) = c1 := by
        have small := c1.toNat_lt
        rw [size, show (c1.toNat + c2.toNat * 256) % 256 = c1.toNat by omega, UInt8.ofNat_toNat]
      have high : UInt8.ofNat (bytes.length / 256 % 256) = c2 := by
        have small := c1.toNat_lt
        have small' := c2.toNat_lt
        rw [size, show (c1.toNat + c2.toNat * 256) / 256 % 256 = c2.toNat by omega, UInt8.ofNat_toNat]
      refine ⟨size ▸ bounded _ _, Or.inl ?_⟩
      rw [writeBytes, low, high, split]
      rfl

theorem deserialize_hashables_exact (uninit : UInt8 × UInt8) (kind : Kind) (stream : Bytes) (hashables : Hashables) (rest : Bytes)
    (got : Hashables.deserialize uninit kind stream = some (hashables, rest)) :
    hashables.kind = kind ∧ hashables.Fits ∧ (stream = hashables.serialize ++ rest ∨ rest = []) := by
  have word := (read_word_inverts 32 256 rfl).exact
  cases kind with
  | sendBlock =>
      simp only [Hashables.deserialize, Option.bind_eq_bind, Option.bind_eq_some_iff, Prod.exists] at got
      obtain ⟨previous, s1, got1, destination, s2, got2, balance, s3, got3, same⟩ := got
      obtain ⟨rfl, rfl⟩ := Prod.mk.inj (Option.some.inj same)
      refine ⟨rfl, trivial, Or.inl ?_⟩
      rw [(word _ _ _ got1).2, (word _ _ _ got2).2, ((read_word_inverts 16 128 rfl).exact _ _ _ got3).2]
      simp [Hashables.serialize]
  | receiveBlock =>
      simp only [Hashables.deserialize, Option.bind_eq_bind, Option.bind_eq_some_iff, Prod.exists] at got
      obtain ⟨previous, s1, got1, source, s2, got2, same⟩ := got
      obtain ⟨rfl, rfl⟩ := Prod.mk.inj (Option.some.inj same)
      refine ⟨rfl, trivial, Or.inl ?_⟩
      rw [(word _ _ _ got1).2, (word _ _ _ got2).2]
      simp [Hashables.serialize]
  | openBlock =>
      simp only [Hashables.deserialize, Option.bind_eq_bind, Option.bind_eq_some_iff, Prod.exists] at got
      obtain ⟨source, s1, got1, representative, s2, got2, account, s3, got3, same⟩ := got
      obtain ⟨rfl, rfl⟩ := Prod.mk.inj (Option.some.inj same)
      refine ⟨rfl, trivial, Or.inl ?_⟩
      rw [(word _ _ _ got1).2, (word _ _ _ got2).2, (word _ _ _ got3).2]
      simp [Hashables.serialize]
  | changeBlock =>
      simp only [Hashables.deserialize, Option.bind_eq_bind, Option.bind_eq_some_iff, Prod.exists] at got
      obtain ⟨previous, s1, got1, representative, s2, got2, same⟩ := got
      obtain ⟨rfl, rfl⟩ := Prod.mk.inj (Option.some.inj same)
      refine ⟨rfl, trivial, Or.inl ?_⟩
      rw [(word _ _ _ got1).2, (word _ _ _ got2).2]
      simp [Hashables.serialize]
  | sendBlockV2 =>
      simp only [Hashables.deserialize, Option.bind_eq_bind, Option.bind_eq_some_iff, Prod.exists] at got
      obtain ⟨previous, s1, got1, destination, s2, got2, action, s3, got3, same⟩ := got
      obtain ⟨rfl, rfl⟩ := Prod.mk.inj (Option.some.inj same)
      obtain ⟨fits, written⟩ := read_bytes_exact uninit s2 action _ got3
      refine ⟨rfl, fits, written.imp_left fun written => ?_⟩
      rw [(word _ _ _ got1).2, (word _ _ _ got2).2, written]
      simp [Hashables.serialize]

-- The signature comes after the action, so a block is only read where its length bytes are there.
theorem block_inverts (uninit : UInt8 × UInt8) (kind : Kind) :
    Inverts (Block.deserialize uninit kind) Block.serialize fun block => block.kind = kind ∧ block.Fits := by
  refine ⟨?_, ?_⟩
  · rintro block rest ⟨rfl, fits⟩
    exact deserialize_written uninit block rest fits
  · intro stream block rest got
    simp only [Block.deserialize, Option.bind_eq_bind, Option.bind_eq_some_iff, Prod.exists] at got
    obtain ⟨hashables, s1, got1, signature, s2, got2, work, s3, got3, same⟩ := got
    obtain ⟨rfl, rfl⟩ := Prod.mk.inj (Option.some.inj same)
    obtain ⟨kinded, fits, written⟩ := deserialize_hashables_exact uninit kind stream hashables s1 got1
    refine ⟨⟨kinded, fits⟩, ?_⟩
    obtain written | rfl := written
    · rw [written, ((read_word_inverts 64 512 rfl).exact _ _ _ got2).2, ((read_word_le_inverts 8 64 rfl).exact _ _ _ got3).2]
      simp [Block.serialize]
    · cases got2

-- An action of 65536 bytes or more is cut when it is read back, and its own bytes are
-- taken for the signature and the work. The fields before it survive.
def cutAction (previous : Hash) (destination : Account) (action : Bytes) (signature : Signature) (work : Work) : Block :=
  let tail := action.drop (action.length % 65536) ++ (wordBytes 64 signature ++ wordBytesLE 8 work)
  ⟨.sendBlockV2 previous destination (action.take (action.length % 65536)), bytesWord 512 (tail.take 64),
    bytesWord 64 ((tail.drop 64).take 8).reverse⟩

theorem deserialize_long_action (uninit : UInt8 × UInt8) (previous : Hash) (destination : Account) (action : Bytes)
    (signature : Signature) (work : Work) (rest : Bytes) :
    ∃ left, Block.deserialize uninit .sendBlockV2
      ((Block.mk (.sendBlockV2 previous destination action) signature work).serialize ++ rest) =
        some (cutAction previous destination action signature work, left) := by
  have cut := Nat.mod_le action.length 65536
  let tail : Bytes := action.drop (action.length % 65536) ++ (wordBytes 64 signature ++ wordBytesLE 8 work)
  have long : 72 ≤ tail.length := by simp [tail]
  refine ⟨(tail.drop 64).drop 8 ++ rest, ?_⟩
  have split : List.drop (action.length % 65536) (action ++ (wordBytes 64 signature ++ (wordBytesLE 8 work ++ rest))) =
    tail ++ rest := by
    rw [List.drop_append_of_le_length cut]
    simp [tail]
  simp only [Block.deserialize, Block.serialize, Hashables.deserialize, Hashables.serialize, List.append_assoc,
    read_word_written, read_bytes_written, Option.bind_eq_bind, Option.bind_some, split, List.take_append_of_le_length cut]
  rw [read_word_append 64 512 tail rest (by omega)]
  simp only [Option.bind_some]
  rw [read_word_le_append 8 64 (tail.drop 64) rest (by simp; omega)]
  rfl

-- What survives storage: the block itself, or for an oversized action its kind and leading fields.
def Block.ReadsAs (block found : Block) : Prop :=
  found = block ∨ ∃ previous destination action kept,
    block.hashables = .sendBlockV2 previous destination action ∧ found.hashables = .sendBlockV2 previous destination kept

theorem deserialize_reads_as (uninit : UInt8 × UInt8) (block : Block) :
    ∃ found, block.ReadsAs found ∧ ∀ rest, ∃ left, Block.deserialize uninit block.kind (block.serialize ++ rest) =
    some (found, left) := by
  obtain ⟨hashables, signature, work⟩ := block
  cases hashables with
  | sendBlockV2 previous destination action =>
      exact ⟨_, Or.inr ⟨previous, destination, action, _, rfl, rfl⟩,
        deserialize_long_action uninit previous destination action signature work⟩
  | _ => exact ⟨_, Or.inl rfl, fun rest => ⟨rest, deserialize_written uninit _ rest trivial⟩⟩

theorem reads_as_kind (block : Block) {found : Block} (reads : block.ReadsAs found) : found.kind = block.kind := by
  obtain same | ⟨previous, destination, action, kept, stored, read⟩ := reads
  · rw [same]
  · simp [Block.kind, stored, read]

theorem reads_as_previous (block : Block) {found : Block} (reads : block.ReadsAs found) : found.previous = block.previous := by
  obtain same | ⟨previous, destination, action, kept, stored, read⟩ := reads
  · rw [same]
  · simp [Block.previous, stored, read]

theorem reads_as_source (block found : Block) (reads : block.ReadsAs found) : found.source = block.source := by
  obtain same | ⟨previous, destination, action, kept, stored, read⟩ := reads
  · rw [same]
  · simp [Block.source, stored, read]

theorem reads_as_root (block found : Block) (reads : block.ReadsAs found) : found.root = block.root := by
  obtain same | ⟨previous, destination, action, kept, stored, read⟩ := reads
  · rw [same]
  · simp [Block.root, Block.previous, stored, read]

theorem reads_as_representative (block found : Block) (reads : block.ReadsAs found) : found.representative = block.representative := by
  obtain same | ⟨previous, destination, action, kept, stored, read⟩ := reads
  · rw [same]
  · simp [Block.representative, stored, read]

theorem reads_as_exact (block found : Block) (reads : block.ReadsAs found) (legacy : block.kind ≠ .sendBlockV2) :
    found = block := by
  obtain same | ⟨previous, destination, action, kept, stored, read⟩ := reads
  · exact same
  · exact absurd (by simp [Block.kind, stored]) legacy

end Rai
