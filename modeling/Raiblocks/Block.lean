import Raiblocks.Kit.Bytes

set_option autoImplicit false

namespace Rai

open Kit

abbrev Hash := BitVec 256
abbrev Account := BitVec 256
abbrev Amount := BitVec 128
abbrev Signature := BitVec 512
abbrev Work := BitVec 64

inductive Kind where
  | sendBlock
  | receiveBlock
  | openBlock
  | changeBlock
  | sendBlockV2
deriving DecidableEq, Repr

-- What the digest covers; every kind carries a signature and a work value besides.
inductive Hashables where
  | sendBlock (previous : Hash) (destination : Account) (balance : Amount)
  | receiveBlock (previous source : Hash)
  | openBlock (source : Hash) (representative account : Account)
  | changeBlock (previous : Hash) (representative : Account)
  | sendBlockV2 (previous : Hash) (destination : Account) (action : Bytes)
deriving DecidableEq, Repr

structure Block where
  hashables : Hashables
  signature : Signature
  work : Work
deriving DecidableEq, Repr

inductive Network where
  | test
  | beta
  | live
deriving DecidableEq, Repr

-- The cryptography and the interpreter are parameters. `validateMessage` follows the source in answering true for a bad
-- signature. `micropyLoad` gives the steps the interpreter takes over a code, and `none` where it does not come back.
structure Env where
  network : Network
  blake2b : Bytes → Hash
  blake2b64 : Bytes → BitVec 64
  validateMessage : Account → Hash → Signature → Bool
  micropyLoad : Bytes → Option Nat

@[simp] def Hashables.kind : Hashables → Kind
  | .sendBlock .. => .sendBlock
  | .receiveBlock .. => .receiveBlock
  | .openBlock .. => .openBlock
  | .changeBlock .. => .changeBlock
  | .sendBlockV2 .. => .sendBlockV2

-- The bytes handed to `blake2b_update`, in call order.
def Hashables.hash : Hashables → Bytes
  | .sendBlock previous destination balance => wordBytes 32 previous ++ wordBytes 32 destination ++ wordBytes 16 balance
  | .receiveBlock previous source => wordBytes 32 previous ++ wordBytes 32 source
  | .openBlock source representative account =>
      wordBytes 32 source ++ wordBytes 32 representative ++ wordBytes 32 account
  | .changeBlock previous representative => wordBytes 32 previous ++ wordBytes 32 representative
  | .sendBlockV2 previous destination action => wordBytes 32 previous ++ wordBytes 32 destination ++ action

namespace Block

def kind (block : Block) : Kind := block.hashables.kind

def hash (env : Env) (block : Block) : Hash := env.blake2b block.hashables.hash

def previous (block : Block) : Hash :=
  match block.hashables with
  | .sendBlock previous .. => previous
  | .receiveBlock previous _ => previous
  | .openBlock .. => 0
  | .changeBlock previous _ => previous
  | .sendBlockV2 previous .. => previous

def source (block : Block) : Hash :=
  match block.hashables with
  | .receiveBlock _ source => source
  | .openBlock source .. => source
  | _ => 0

def root (block : Block) : Hash :=
  match block.hashables with
  | .openBlock _ _ account => account
  | _ => block.previous

def representative (block : Block) : Account :=
  match block.hashables with
  | .openBlock _ representative _ => representative
  | .changeBlock _ representative => representative
  | _ => 0

end Block

def workValue (env : Env) (root : Hash) (work : Work) : BitVec 64 :=
  env.blake2b64 (wordBytesLE 8 work ++ wordBytes 32 root)

def genesisAccount : Network → Account
  | .test => 0xB0311EA55708D6A53C75CDBF88300259C6D018522FE3D4D0A242E431F9E8B6D0
  | .beta => 0x9D3A5B66B478670455B241D6BAC3D3FE1CBB7E7B7EAA429FA036C2704C3DC0A4
  | .live => 0xE89208DD038FBB269987689621D52292AE9C35941A7484756ECCED92A65093BA

def genesisSignature : Network → Signature
  | .test =>
    0xECDA914373A2F0CA1296475BAEE40500A7F0A7AD72A5A80C81D7FAB7F6C802B2CC7DB50F5DD0FB25B2EF11761FA7344A158DD5A700B21BD47DE5BD0F63153A02
  | .beta =>
    0xBD0D374FCEB33EAABDF728E9B4DCDBF3B226DA97EEAB8EA5B7EDE286B1282C24D6EB544644FE871235E4F58CD94DF66D9C555309895F67A7D1F922AAC12CE907
  | .live =>
    0x9F0C933C8ADE004D808EA1985FA746A7E95BA2A38F867640F53EC8F180BDFE9E2C1268DEAD7C2664F356E37ABA362BC58E46DBA03E523A7B5A19E4B6EB12BB02

def genesisWork : Network → Work
  | .test => 0x9680625b39d3363d
  | .beta => 0x6eb12d4c42dba31e
  | .live => 0x62f05417dd3fb691

-- `genesis::open`: the account opens itself, with its own number as the source.
def genesisOpen (network : Network) : Block where
  hashables := .openBlock (genesisAccount network) (genesisAccount network) (genesisAccount network)
  signature := genesisSignature network
  work := genesisWork network

def genesisAmount : Amount := BitVec.allOnes 128

def burnAccount : Account := 0

def genesisHash (env : Env) : Hash := (genesisOpen env.network).hash env

theorem genesis_account_ne_zero (network : Network) : genesisAccount network ≠ 0 := by
  cases network <;> decide

-- The numbers that can own a chain: the genesis account, and every key under
-- which some signature validates.
def AccountNumber (env : Env) (account : Account) : Prop :=
  account = genesisAccount env.network ∨ ∃ hash signature, env.validateMessage account hash signature = false

-- No digest takes one of the values the ledger gives another meaning.
class HashesApart (env : Env) : Prop where
  zero : ∀ block : Block, block.hash env ≠ 0
  one : ∀ block : Block, block.hash env ≠ 1
  account : ∀ (block : Block) (account : Account), AccountNumber env account → block.hash env ≠ account

-- A small instance, with digests below 2^20 and keys above 2^32; a signature is good if it is even.
def sampleEnv : Env where
  network := .test
  blake2b := fun bytes => BitVec.ofNat 256 (2 + natBE bytes % 1000003)
  blake2b64 := fun bytes => BitVec.ofNat 64 (natBE (bytes.take 8))
  validateMessage := fun account _ signature => decide (account.toNat < 2 ^ 32) || signature.toNat % 2 == 1
  micropyLoad := fun code => some code.length

theorem sample_hash_bounds (block : Block) : 2 ≤ (block.hash sampleEnv).toNat ∧ (block.hash sampleEnv).toNat < 2 ^ 20 := by
  have small : natBE block.hashables.hash % 1000003 < 1000003 := Nat.mod_lt _ (by decide)
  have value : (block.hash sampleEnv).toNat = (2 + natBE block.hashables.hash % 1000003) % 2 ^ 256 := BitVec.toNat_ofNat _ _
  omega

theorem sample_account_bound (account : Account) (number : AccountNumber sampleEnv account) : 2 ^ 32 ≤ account.toNat := by
  obtain rfl | ⟨hash, signature, good⟩ := number
  · decide
  · simp only [sampleEnv, Bool.or_eq_false_iff, decide_eq_false_iff_not] at good
    omega

theorem sample_signed (account : Account) (hash : Hash) (number : AccountNumber sampleEnv account) :
    sampleEnv.validateMessage account hash 0 = false := by
  have above := sample_account_bound account number
  have even : (0 : Signature).toNat = 0 := BitVec.toNat_zero
  change (decide (account.toNat < 2 ^ 32) || (0 : Signature).toNat % 2 == 1) = false
  rw [even, decide_eq_false (by omega)]
  rfl

theorem sample_unsigned (account : Account) (hash : Hash) : sampleEnv.validateMessage account hash 1 = true := by
  have odd : (1 : Signature).toNat = 1 := BitVec.toNat_one (by decide)
  change (decide (account.toNat < 2 ^ 32) || (1 : Signature).toNat % 2 == 1) = true
  rw [odd]
  exact Bool.or_true _

instance sample_apart : HashesApart sampleEnv := by
  refine ⟨?_, ?_, ?_⟩
  · intro block zero
    have low := (sample_hash_bounds block).1
    rw [zero] at low
    exact absurd low (by decide)
  · intro block one
    have low := (sample_hash_bounds block).1
    rw [one] at low
    exact absurd low (by decide)
  · intro block account number same
    have low := (sample_hash_bounds block).2
    have high := sample_account_bound account number
    rw [same] at low
    omega

end Rai
