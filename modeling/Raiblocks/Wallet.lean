import Raiblocks.Block
import Raiblocks.Kit.Cursor
import Raiblocks.Kit.Fuel

set_option autoImplicit false

namespace Rai

open Kit

abbrev Key := BitVec 256

-- argon2, ed25519, blake2b, and the stream that AES in counter mode makes of a key and an initial value.
structure WalletEnv where
  phs : String → Key → Key
  publicKey : Key → Account
  blake2b : Bytes → Key
  keystream : Key → BitVec 128 → Key

namespace WalletEnv

-- Counter mode adds the stream bit by bit, so the two directions are the same.
def encrypt (env : WalletEnv) (cleartext key : Key) (iv : BitVec 128) : Key := cleartext ^^^ env.keystream key iv

def decrypt (env : WalletEnv) (ciphertext key : Key) (iv : BitVec 128) : Key := ciphertext ^^^ env.keystream key iv

def deterministicKey (env : WalletEnv) (seed : Key) (index : BitVec 32) : Key := env.blake2b (wordBytes 32 seed ++ wordBytes 4 index)

end WalletEnv

-- A key spread over several places. There is always a first one.
structure Fan where
  values : List Key
  spread : values ≠ []

namespace Fan

def start (key : Key) (entries : List Key) : Fan := ⟨entries ++ [entries.foldl (· ^^^ ·) key], by simp⟩

def value (fan : Fan) : Key := fan.values.foldl (· ^^^ ·) 0

def valueSet (fan : Fan) (value : Key) : Fan :=
  ⟨(fan.values.head fan.spread ^^^ fan.value ^^^ value) :: fan.values.tail, List.cons_ne_nil _ _⟩

end Fan

structure WalletValue where
  key : Key
  work : BitVec 64
deriving DecidableEq, Repr

inductive KeyType where
  | unknown
  | adhoc
  | deterministic
deriving DecidableEq, Repr

def versionSpecial : Key := 0
def saltSpecial : Key := 1
def walletKeySpecial : Key := 2
def checkSpecial : Key := 3
def representativeSpecial : Key := 4
def seedSpecial : Key := 5
def deterministicIndexSpecial : Key := 6
def specialCount : Key := 7

-- The entries are the wallet file, the fans are in memory.
structure WalletStore where
  entries : Table Key WalletValue
  password : Fan
  walletKeyMem : Fan

def keyType (value : WalletValue) : KeyType :=
  if 2 ^ 64 ≤ value.key.toNat then .adhoc
  else if (value.key >>> 32).setWidth 32 = 1#32 then .deterministic
  else .unknown

def marker (index : BitVec 32) : Key := ((1#64 <<< 32) ||| index.setWidth 64).setWidth 256

namespace WalletStore

def entryGetRaw (s : WalletStore) (pub : Key) : WalletValue := (s.entries.get pub).getD ⟨0, 0⟩

def entryPutRaw (s : WalletStore) (pub : Key) (entry : WalletValue) : WalletStore := { s with entries := s.entries.put pub entry }

def erase (s : WalletStore) (pub : Key) : Except Fault WalletStore := do
  ensure ((s.entries.get pub).isSome = true)
  .ok { s with entries := s.entries.del pub }

def «exists» (s : WalletStore) (pub : Key) : Bool := (s.entries.get pub).isSome

def accounts (s : WalletStore) : List (Key × WalletValue) := s.entries.rows.filter fun row => specialCount ≤ row.1

def check (s : WalletStore) : Key := (s.entryGetRaw checkSpecial).key

def salt (s : WalletStore) : Key := (s.entryGetRaw saltSpecial).key

-- `salt.owords[0]`, the first half of the salt.
def iv (s : WalletStore) : BitVec 128 := s.salt.extractLsb' 128 128

def version (s : WalletStore) : BitVec 8 := (s.entryGetRaw versionSpecial).key.setWidth 8

def versionPut (s : WalletStore) (version : Key) : WalletStore := s.entryPutRaw versionSpecial ⟨version, 0⟩

def deterministicIndexGet (s : WalletStore) : BitVec 32 := (s.entryGetRaw deterministicIndexSpecial).key.setWidth 32

def deterministicIndexSet (s : WalletStore) (index : BitVec 32) : WalletStore :=
  s.entryPutRaw deterministicIndexSpecial ⟨index.setWidth 256, 0⟩

-- The loop erases the entry under its cursor and goes on from there.
def deterministicClear (s : WalletStore) : Except Fault WalletStore := do
  let s ← s.accounts.foldlM (fun s row => if keyType row.2 = .deterministic then s.erase row.1 else .ok s) s
  .ok (s.deterministicIndexSet 0)

def representativeSet (s : WalletStore) (representative : Account) : WalletStore :=
  s.entryPutRaw representativeSpecial ⟨representative, 0⟩

def workPut (s : WalletStore) (pub : Key) (work : BitVec 64) : Except Fault WalletStore := do
  ensure ((s.entryGetRaw pub).key ≠ 0)
  .ok (s.entryPutRaw pub { s.entryGetRaw pub with work := work })

def passwordSet (s : WalletStore) (password : Key) : WalletStore := { s with password := s.password.valueSet password }

section Keys

variable (env : WalletEnv)

def deriveKey (s : WalletStore) (password : String) : Key := env.phs password s.salt

def walletKey (s : WalletStore) : Key := env.decrypt s.walletKeyMem.value s.password.value s.iv

def validPassword (s : WalletStore) : Bool := decide (s.check = env.encrypt 0 (s.walletKey env) s.iv)

def seed (s : WalletStore) : Key := env.decrypt (s.entryGetRaw seedSpecial).key (s.walletKey env) s.iv

def seedSet (s : WalletStore) (prv : Key) : Except Fault WalletStore :=
  (s.entryPutRaw seedSpecial ⟨env.encrypt prv (s.walletKey env) s.iv, 0⟩).deterministicClear

def deterministicKey (s : WalletStore) (index : BitVec 32) : Except Fault Key := do
  ensure (s.validPassword env = true)
  .ok (env.deterministicKey (s.seed env) index)

-- The loop of `deterministic_insert`: the first key from `index` on that the wallet does not have.
def unusedKey (s : WalletStore) : Nat → BitVec 32 → Except Fault (BitVec 32 × Account)
  | 0, _ => .error .fuel
  | fuel + 1, index => do
      let prv ← s.deterministicKey env index
      if s.exists (env.publicKey prv) then unusedKey s fuel (index + 1) else .ok (index, env.publicKey prv)

def deterministicInsert (fuel : Nat) (s : WalletStore) : Except Fault (WalletStore × Account) := do
  let (index, pub) ← s.unusedKey env fuel s.deterministicIndexGet
  .ok ((s.entryPutRaw pub ⟨marker index, 0⟩).deterministicIndexSet (index + 1), pub)

def insertAdhoc (s : WalletStore) (prv : Key) : Except Fault (WalletStore × Account) := do
  ensure (s.validPassword env = true)
  let pub := env.publicKey prv
  .ok (s.entryPutRaw pub ⟨env.encrypt prv (s.walletKey env) s.iv, 0⟩, pub)

-- `none` is the error that `fetch` returns.
def fetch (s : WalletStore) (pub : Key) : Except Fault (Option Key) := do
  if s.validPassword env then
    let value := s.entryGetRaw pub
    if value.key = 0 then .ok none
    else
      match keyType value with
      | .deterministic => do
          let prv ← s.deterministicKey env (value.key.setWidth 32)
          .ok (if pub = env.publicKey prv then some prv else none)
      | .adhoc =>
          let prv := env.decrypt value.key (s.walletKey env) s.iv
          .ok (if pub = env.publicKey prv then some prv else none)
      | .unknown => .ok none
  else .ok none

-- The flag is the error: the wallet key could not be encrypted again with a wrong password.
def rekey (s : WalletStore) (password : String) : WalletStore × Bool :=
  if s.validPassword env then
    let passwordNew := s.deriveKey env password
    let encrypted := env.encrypt (s.walletKey env) passwordNew s.iv
    let s := s.passwordSet passwordNew
    let s := { s with walletKeyMem := s.walletKeyMem.valueSet encrypted }
    (s.entryPutRaw walletKeySpecial ⟨encrypted, 0⟩, false)
  else (s, true)

-- A key that does not decrypt is tried with the two keys that an early version may have used.
def repairAccount (byZero byEmpty : Key) (s : WalletStore) (row : Key × WalletValue) : Except Fault WalletStore := do
  match ← s.fetch env row.1 with
  | some _ => .ok s
  | none =>
      let data := (s.entryGetRaw row.1).key
      if env.publicKey (env.decrypt data byZero s.iv) = row.1 then
        let (s, _) ← s.insertAdhoc env (env.decrypt data byZero s.iv)
        .ok s
      else if env.publicKey (env.decrypt data byEmpty s.iv) = row.1 then
        let (s, _) ← s.insertAdhoc env (env.decrypt data byEmpty s.iv)
        .ok s
      else .ok s

def upgradeV1V2 (s : WalletStore) : Except Fault WalletStore := do
  ensure (s.version = 1)
  let stored := (s.entryGetRaw walletKeySpecial).key
  let zeroPassword := env.decrypt stored 0 s.iv
  let emptyPassword := env.decrypt stored (s.deriveKey env "") s.iv
  let s ← s.accounts.foldlM (repairAccount env zeroPassword emptyPassword) s
  .ok (s.versionPut 2)

def upgradeV2V3 (s : WalletStore) (random : Key) : Except Fault WalletStore := do
  ensure (s.version = 2)
  let s ← s.seedSet env random
  .ok ((s.entryPutRaw deterministicIndexSpecial ⟨0, 0⟩).versionPut 3)

-- Each upgrade has a transaction of its own, and both tests read the version in that of the caller, where it is still the
-- old one: a first version becomes a second and no third.
def upgrade (random : Key) (s : WalletStore) : Except Fault WalletStore :=
  if s.version = 1 then s.upgradeV1V2 env
  else if s.version = 2 then s.upgradeV2V3 env random
  else .ok s

-- The password is set whether it is right or not; the flag is the error.
def attemptPassword (random : Key) (s : WalletStore) (password : String) : Except Fault (WalletStore × Bool) := do
  let s := s.passwordSet (s.deriveKey env password)
  if s.validPassword env then
    let s ← s.upgrade env random
    .ok (s, false)
  else .ok (s, true)

-- The constructor on a name without a wallet, up to the seed. The salt, the wallet key, the seed and the
-- parts of the fans come from the random pool.
def unseeded (representative salt walletKey : Key) (parts parts' : List Key) : WalletStore :=
  let s : WalletStore := ⟨.empty, Fan.start 0 parts, Fan.start 0 parts'⟩
  let s := s.versionPut 3
  let s := s.entryPutRaw saltSpecial ⟨salt, 0⟩
  let s := s.passwordSet 0
  let encrypted := env.encrypt walletKey 0 s.iv
  let s := s.entryPutRaw walletKeySpecial ⟨encrypted, 0⟩
  let s := { s with walletKeyMem := s.walletKeyMem.valueSet encrypted }
  let s := s.entryPutRaw checkSpecial ⟨env.encrypt 0 walletKey s.iv, 0⟩
  s.entryPutRaw representativeSpecial ⟨representative, 0⟩

def withSeed (s : WalletStore) (seed : Key) : Except Fault WalletStore := do
  let s ← s.seedSet env seed
  let s := s.entryPutRaw deterministicIndexSpecial ⟨0, 0⟩
  .ok { s with walletKeyMem := s.walletKeyMem.valueSet (s.entryGetRaw walletKeySpecial).key }

def create (representative salt walletKey seed : Key) (parts parts' : List Key) : Except Fault WalletStore :=
  (unseeded env representative salt walletKey parts parts').withSeed env seed

end Keys

end WalletStore

-- `wallets::items`. One turn of the loop in `wallet_store::move`, between two of them as `account_move` calls it; both
-- identifiers may name one wallet. The flag is the error, which stops all further moves.
def moveAccount (env : WalletEnv) (wallet source : Key) (state : Table Key WalletStore × Bool) (pub : Key) :
    Except Fault (Table Key WalletStore × Bool) := do
  let (items, result) := state
  let origin ← require (items.get source)
  match ← origin.fetch env pub with
  | none => .ok (items, true)
  | some prv =>
      if result then .ok (items, true)
      else
        let into ← require (items.get wallet)
        let (into, _) ← into.insertAdhoc env prv
        let items := items.put wallet into
        let origin ← require (items.get source)
        let origin ← origin.erase pub
        .ok (items.put source origin, false)

def walletMove (env : WalletEnv) (items : Table Key WalletStore) (wallet source : Key) (keys : List Key) :
    Except Fault (Table Key WalletStore × Bool) := do
  let into ← require (items.get wallet)
  let origin ← require (items.get source)
  ensure (into.validPassword env = true)
  ensure (origin.validPassword env = true)
  keys.foldlM (moveAccount env wallet source) (items, false)

end Rai
