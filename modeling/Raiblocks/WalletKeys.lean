import Raiblocks.WalletSpec

set_option autoImplicit false

namespace Rai

open Kit

inductive Holding where
  | adhoc (prv : Key)
  | derived (index : BitVec 32)

namespace Holding

def type : Holding → KeyType
  | .adhoc _ => .adhoc
  | .derived _ => .deterministic

def secret (env : WalletEnv) (seed : Key) : Holding → Key
  | .adhoc prv => prv
  | .derived index => env.deterministicKey seed index

def stored (check : Key) : Holding → Key
  | .adhoc prv => prv ^^^ check
  | .derived index => marker index

end Holding

-- What a wallet is for: the accounts put in and not taken out since, the seed that was set last and the
-- password of the last successful `rekey`.
structure Vault where
  seed : Key
  held : Key → Option Holding
  phrase : Option String

namespace Vault

def insert (vault : Vault) (pub : Key) (holding : Holding) : Vault :=
  { vault with held := Function.update vault.held pub (some holding) }

def erase (vault : Vault) (pub : Key) : Vault := { vault with held := Function.update vault.held pub none }

def reseed (vault : Vault) (seed : Key) : Vault :=
  { vault with seed := seed, held := fun pub => (vault.held pub).filter fun holding => holding.type ≠ .deterministic }

theorem held_insert (vault : Vault) (pub query : Key) (holding : Holding) :
    (vault.insert pub holding).held query = if query = pub then some holding else vault.held query := Function.update_apply ..

theorem held_erase (vault : Vault) (pub query : Key) : (vault.erase pub).held query = if query = pub then none else vault.held query :=
  Function.update_apply ..

end Vault

-- A wallet from its creation on, with the vault that its calls add up to. The index of a derived account is
-- the one its entry records. A ciphertext that an account is stored under is not taken for a marker.
inductive WalletRun (env : WalletEnv) : WalletStore → Vault → Prop where
  | create (representative salt walletKey seed : Key) (parts parts' : List Key) (s : WalletStore)
      (created : WalletStore.create env representative salt walletKey seed parts parts' = .ok s) :
      WalletRun env s ⟨seed, fun _ => none, none⟩
  | insertAdhoc (s : WalletStore) (vault : Vault) (prv : Key) (out : WalletStore × Account) (run : WalletRun env s vault)
      (long : 2 ^ 64 ≤ (env.encrypt prv (s.walletKey env) s.iv).toNat) (returned : s.insertAdhoc env prv = .ok out) :
      WalletRun env out.1 (vault.insert out.2 (.adhoc prv))
  | deterministicInsert (fuel : Nat) (s : WalletStore) (vault : Vault) (out : WalletStore × Account) (run : WalletRun env s vault)
      (returned : s.deterministicInsert env fuel = .ok out) :
      WalletRun env out.1 (vault.insert out.2 (.derived ((out.1.entryGetRaw out.2).key.setWidth 32)))
  | seedSet (s : WalletStore) (vault : Vault) (prv : Key) (s' : WalletStore) (run : WalletRun env s vault)
      (valid : s.validPassword env = true) (returned : s.seedSet env prv = .ok s') : WalletRun env s' (vault.reseed prv)
  | erase (s : WalletStore) (vault : Vault) (pub : Key) (s' : WalletStore) (run : WalletRun env s vault) (account : specialCount ≤ pub)
      (returned : s.erase pub = .ok s') : WalletRun env s' (vault.erase pub)
  | rekey (s : WalletStore) (vault : Vault) (password : String) (run : WalletRun env s vault)
    (changed : (s.rekey env password).2 = false) :
      WalletRun env (s.rekey env password).1 { vault with phrase := some password }
  | rekeyRefused (s : WalletStore) (vault : Vault) (password : String) (run : WalletRun env s vault)
      (refused : (s.rekey env password).2 = true) : WalletRun env (s.rekey env password).1 vault
  | attemptPassword (random : Key) (s : WalletStore) (vault : Vault) (password : String) (out : WalletStore × Bool)
      (run : WalletRun env s vault) (returned : s.attemptPassword env random password = .ok out) : WalletRun env out.1 vault

def Opens (env : WalletEnv) (s : WalletStore) (password : String) : Prop :=
  env.keystream (env.decrypt s.walletKeyMem.value (env.phs password s.salt) s.iv) s.iv = s.check

structure Keeps (env : WalletEnv) (s : WalletStore) (vault : Vault) : Prop where
  current : s.version = 3
  seed : (s.entryGetRaw seedSpecial).key ^^^ s.check = vault.seed
  held : ∀ pub, specialCount ≤ pub → s.entries.get pub = (vault.held pub).map fun holding => ⟨holding.stored s.check, 0⟩
  owned : ∀ pub holding, vault.held pub = some holding →
    specialCount ≤ pub ∧ env.publicKey (holding.secret env vault.seed) = pub ∧ keyType ⟨holding.stored s.check, 0⟩ = holding.type
  phrase : ∀ password, vault.phrase = some password → Opens env s password

section Frames

structure Frame (s t : WalletStore) : Prop where
  version : t.version = s.version
  check : t.check = s.check
  salt : t.salt = s.salt
  mem : t.walletKeyMem.value = s.walletKeyMem.value

variable {env : WalletEnv} {s t : WalletStore} {vault : Vault}

theorem opens_frame (frame : Frame s t) (password : String) (opens : Opens env s password) : Opens env t password := by
  rw [Opens, WalletStore.iv, frame.salt, frame.check, frame.mem]
  exact opens

theorem valid_frame (frame : Frame s t) (set : t.password.value = s.password.value) : t.validPassword env = s.validPassword env := by
  rw [Bool.eq_iff_iff, WalletStore.valid_iff, WalletStore.valid_iff, WalletStore.walletKey, WalletStore.iv, frame.salt,
    frame.check, frame.mem, set]
  rfl

theorem frame_specials (mem : t.walletKeyMem = s.walletKeyMem)
    (same : ∀ special ∈ [versionSpecial, checkSpecial, saltSpecial], t.entryGetRaw special = s.entryGetRaw special) : Frame s t where
  version := by rw [WalletStore.version, same versionSpecial (by simp)]; rfl
  check := by rw [WalletStore.check, same checkSpecial (by simp)]; rfl
  salt := by rw [WalletStore.salt, same saltSpecial (by simp)]; rfl
  mem := by rw [mem]

theorem frame_put (s : WalletStore) (pub : Key) (entry : WalletValue) (other : pub ∉ [versionSpecial, checkSpecial, saltSpecial]) :
    Frame s (s.entryPutRaw pub entry) := by
  refine frame_specials rfl fun special member => ?_
  rw [WalletStore.entry_get_put, if_neg]
  rintro rfl
  exact other member

theorem frame_trans {u : WalletStore} (first : Frame s t) (second : Frame t u) : Frame s u :=
  ⟨second.version.trans first.version, second.check.trans first.check, second.salt.trans first.salt, second.mem.trans first.mem⟩

theorem frame_special (special : Key) (member : special ∈ [versionSpecial, checkSpecial, saltSpecial]) :
    special < specialCount ∧ special ≠ deterministicIndexSpecial ∧ special ≠ seedSpecial := by
  simp only [List.mem_cons, List.not_mem_nil, or_false] at member
  rcases member with rfl | rfl | rfl
  all_goals decide

theorem account_other (pub : Key) (account : specialCount ≤ pub) : pub ∉ [versionSpecial, checkSpecial, saltSpecial] := by
  intro member
  exact account_ne pub account (frame_special pub member).1 rfl

theorem keeps_insert (keeps : Keeps env s vault) (pub : Key) (holding : Holding) (account : specialCount ≤ pub)
    (owner : env.publicKey (holding.secret env vault.seed) = pub) (typed : keyType ⟨holding.stored s.check, 0⟩ = holding.type) :
    Keeps env (s.entryPutRaw pub ⟨holding.stored s.check, 0⟩) (vault.insert pub holding) := by
  have frame := frame_put s pub ⟨holding.stored s.check, 0⟩ (account_other pub account)
  refine ⟨frame.version.trans keeps.current, ?_, ?_, ?_, fun password chosen => opens_frame frame password
    (keeps.phrase password chosen)⟩
  · rw [frame.check, WalletStore.entry_get_put, if_neg (account_ne seedSpecial account (by decide)).symm]
    exact keeps.seed
  · intro query known
    rw [WalletStore.get_put, frame.check, Vault.held_insert]
    split
    · rfl
    · exact keeps.held query known
  · intro query found held
    rw [frame.check]
    rw [Vault.held_insert] at held
    split at held
    · next here =>
        cases held
        exact ⟨here ▸ account, here ▸ owner, typed⟩
    · exact keeps.owned query found held

theorem keeps_index (keeps : Keeps env s vault) (index : BitVec 32) : Keeps env (s.deterministicIndexSet index) vault := by
  have frame := frame_put s deterministicIndexSpecial ⟨index.setWidth 256, 0⟩ (by decide)
  refine ⟨frame.version.trans keeps.current, ?_, ?_, ?_, fun password chosen => opens_frame frame password
    (keeps.phrase password chosen)⟩
  · rw [WalletStore.deterministicIndexSet, frame.check, WalletStore.entry_get_put, if_neg (by decide)]
    exact keeps.seed
  · intro pub account
    rw [WalletStore.deterministicIndexSet, WalletStore.get_put, if_neg (account_ne _ account (by decide)), frame.check]
    exact keeps.held pub account
  · intro pub holding held
    rw [WalletStore.deterministicIndexSet, frame.check]
    exact keeps.owned pub holding held

theorem keeps_erase (keeps : Keeps env s vault) (pub : Key) (account : specialCount ≤ pub) (returned : s.erase pub = .ok t) :
    Keeps env t (vault.erase pub) := by
  obtain ⟨_, rfl⟩ := WalletStore.erase_returned s t pub returned
  have kept : ∀ special, special ≠ pub → ({ s with entries := s.entries.del pub } : WalletStore).entryGetRaw special =
    s.entryGetRaw special := by
    intro special other
    simp only [WalletStore.entryGetRaw, Table.get_del_ne _ _ _ other]
  have frame : Frame s { s with entries := s.entries.del pub } := frame_specials rfl fun special member =>
    kept special fun same => account_other pub account (same ▸ member)
  refine ⟨frame.version.trans keeps.current, ?_, ?_, ?_, fun password chosen => opens_frame frame password
    (keeps.phrase password chosen)⟩
  · rw [frame.check, kept _ (account_ne seedSpecial account (by decide)).symm]
    exact keeps.seed
  · intro query known
    rw [frame.check, Vault.held_erase, Table.get_del]
    split
    · rfl
    · exact keeps.held query known
  · intro query holding held
    rw [Vault.held_erase] at held
    split at held
    · cases held
    · rw [frame.check]
      exact keeps.owned query holding held

theorem held_reseed (vault : Vault) (prv pub : Key) (holding : Holding) :
    (vault.reseed prv).held pub = some holding ↔ vault.held pub = some holding ∧ holding.type ≠ .deterministic := by
  simp [Vault.reseed, Option.filter_eq_some_iff]

theorem seed_set_frame (valid : s.validPassword env = true) (prv : Key) : ∃ t, s.seedSet env prv = .ok t ∧ Frame s t ∧
    t.password = s.password ∧ t.entryGetRaw seedSpecial = ⟨prv ^^^ s.check, 0⟩ ∧
    ∀ pub, specialCount ≤ pub → t.entries.get pub = (s.entries.get pub).filter fun value => keyType value ≠ .deterministic := by
  obtain ⟨entries, cleared, accounts, seeded, specials⟩ := WalletStore.seed_set_valid s valid prv
  refine ⟨_, cleared, frame_specials rfl fun special member => ?_, rfl, ?_, accounts⟩
  · obtain ⟨low, notIndex, notSeed⟩ := frame_special special member
    simp only [WalletStore.entryGetRaw, specials special low notIndex notSeed]
  · simp only [WalletStore.entryGetRaw, seeded, Option.getD_some]

theorem keeps_seed (keeps : Keeps env s vault) (prv : Key) (valid : s.validPassword env = true) (returned : s.seedSet env prv = .ok t) :
    Keeps env t (vault.reseed prv) := by
  obtain ⟨u, cleared, frame, _, seeded, accounts⟩ := seed_set_frame valid prv
  rw [cleared] at returned
  cases returned
  refine ⟨frame.version.trans keeps.current, ?_, ?_, ?_, fun password chosen => opens_frame frame password
    (keeps.phrase password chosen)⟩
  · rw [frame.check, seeded, xor_cancel]
    rfl
  · intro pub account
    have after : (vault.reseed prv).held pub = (vault.held pub).filter fun holding => holding.type ≠ .deterministic := rfl
    rw [frame.check, accounts pub account, keeps.held pub account, after]
    cases held : vault.held pub with
    | none => rfl
    | some holding =>
        have typed := (keeps.owned pub holding held).2.2
        simp only [Option.map_some, Option.filter_some, typed]
        split <;> rfl
  · intro pub holding held
    obtain ⟨before, adhoc⟩ := (held_reseed vault prv pub holding).mp held
    obtain ⟨account, owner, typed⟩ := keeps.owned pub holding before
    rw [frame.check]
    cases holding with
    | adhoc prv => exact ⟨account, owner, typed⟩
    | derived index => exact absurd rfl adhoc

theorem keeps_password (keeps : Keeps env s vault) (password : Key) : Keeps env (s.passwordSet password) vault :=
  ⟨keeps.current, keeps.seed, keeps.held, keeps.owned, keeps.phrase⟩

end Frames

section Passwords

variable {env : WalletEnv} {s : WalletStore} {vault : Vault}

theorem valid_password_set (password : String) :
    (s.passwordSet (s.deriveKey env password)).validPassword env = true ↔ Opens env s password := by
  rw [WalletStore.valid_iff, WalletStore.walletKey, WalletStore.passwordSet, value_set_value]
  rfl

theorem attempt_current (current : s.version = 3) (random : Key) (password : String) :
    s.attemptPassword env random password =
      .ok (s.passwordSet (s.deriveKey env password), !(s.passwordSet (s.deriveKey env password)).validPassword env) := by
  have version : (s.passwordSet (s.deriveKey env password)).version = 3 := current
  have first : ¬ (3 : BitVec 8) = 1 := by decide
  have second : ¬ (3 : BitVec 8) = 2 := by decide
  simp only [WalletStore.attemptPassword, WalletStore.upgrade, version, if_neg first, if_neg second, bind_ok]
  split
  · next valid => rw [valid]; rfl
  · next locked => rw [Bool.eq_false_iff.mpr locked]; rfl

def rekeyed (env : WalletEnv) (s : WalletStore) (password : String) : WalletStore :=
  let encrypted := env.encrypt (s.walletKey env) (s.deriveKey env password) s.iv
  ({ s.passwordSet (s.deriveKey env password) with walletKeyMem := s.walletKeyMem.valueSet encrypted } : WalletStore).entryPutRaw
    walletKeySpecial ⟨encrypted, 0⟩

theorem rekey_valid (valid : s.validPassword env = true) (password : String) :
    s.rekey env password = (rekeyed env s password, false) := by
  rw [WalletStore.rekey, if_pos valid]
  rfl

theorem rekey_locked (locked : s.validPassword env = false) (password : String) : s.rekey env password = (s, true) := by
  rw [WalletStore.rekey, locked]
  rfl

theorem rekey_changed (password : String) (changed : (s.rekey env password).2 = false) : s.validPassword env = true := by
  by_contra locked
  rw [rekey_locked (Bool.eq_false_iff.mpr locked)] at changed
  cases changed

theorem rekeyed_get (password : String) (pub : Key) (other : pub ≠ walletKeySpecial) :
    (rekeyed env s password).entries.get pub = s.entries.get pub := by
  rw [rekeyed, WalletStore.get_put, if_neg other]
  rfl

theorem rekeyed_entry (password : String) (pub : Key) (other : pub ≠ walletKeySpecial) :
    (rekeyed env s password).entryGetRaw pub = s.entryGetRaw pub := by
  rw [WalletStore.entryGetRaw, rekeyed_get password pub other]
  rfl

theorem rekeyed_salt (password : String) : (rekeyed env s password).salt = s.salt := by
  rw [WalletStore.salt, rekeyed_entry _ _ (by decide)]
  rfl

theorem rekeyed_check (password : String) : (rekeyed env s password).check = s.check := by
  rw [WalletStore.check, rekeyed_entry _ _ (by decide)]
  rfl

theorem rekeyed_key (password : String) : (rekeyed env s password).walletKey env = s.walletKey env := by
  have mem : (rekeyed env s password).walletKeyMem.value = env.encrypt (s.walletKey env) (s.deriveKey env password) s.iv :=
    value_set_value _ _
  have set : (rekeyed env s password).password.value = s.deriveKey env password := value_set_value _ _
  have iv : (rekeyed env s password).iv = s.iv := by rw [WalletStore.iv, rekeyed_salt]; rfl
  rw [WalletStore.walletKey, mem, set, iv, WalletEnv.encrypt, WalletEnv.decrypt, xor_cancel]

theorem rekeyed_valid (valid : s.validPassword env = true) (password : String) : (rekeyed env s password).validPassword env = true := by
  rw [WalletStore.valid_iff, rekeyed_key, rekeyed_check, WalletStore.iv, rekeyed_salt]
  exact (WalletStore.valid_iff env s).mp valid

-- The new password is the one that is set, so it opens the wallet because the wallet is open.
theorem rekeyed_opens (valid : s.validPassword env = true) (password : String) : Opens env (rekeyed env s password) password := by
  have set : (rekeyed env s password).password.value = env.phs password (rekeyed env s password).salt := by
    rw [rekeyed_salt]
    exact value_set_value _ _
  have opened := (WalletStore.valid_iff env _).mp (rekeyed_valid valid password)
  rwa [WalletStore.walletKey, set] at opened

theorem keeps_rekey (keeps : Keeps env s vault) (valid : s.validPassword env = true) (password : String) :
    Keeps env (rekeyed env s password) { vault with phrase := some password } where
  current := by rw [WalletStore.version, rekeyed_entry _ _ (by decide)]; exact keeps.current
  seed := by rw [rekeyed_entry _ _ (by decide), rekeyed_check]; exact keeps.seed
  held pub account := by
    rw [rekeyed_get _ _ (account_ne _ account (by decide)), rekeyed_check]
    exact keeps.held pub account
  owned pub holding held := by
    rw [rekeyed_check]
    exact keeps.owned pub holding held
  phrase other chosen := by
    cases chosen
    exact rekeyed_opens valid password

theorem reveal_special (proper : ∀ prv, specialCount ≤ env.publicKey prv) (pub : Key) (special : pub < specialCount) :
    s.reveal env pub = none := by
  rw [WalletStore.reveal]
  apply Option.filter_eq_none_iff.mpr
  intro prv _ owner
  exact absurd (of_decide_eq_true owner ▸ proper prv) (not_le.mpr special)

theorem rekeyed_reveal (proper : ∀ prv, specialCount ≤ env.publicKey prv) (password : String) (pub : Key) :
    (rekeyed env s password).reveal env pub = s.reveal env pub := by
  by_cases special : pub < specialCount
  · rw [reveal_special proper pub special, reveal_special proper pub special]
  · have entry := @rekeyed_entry env s password pub (account_ne _ (not_lt.mp special) (by decide))
    exact WalletStore.reveal_same s _ pub entry (rekeyed_check password) (rekeyed_entry password seedSpecial (by decide))

end Passwords

section Steps

variable {env : WalletEnv} {s : WalletStore} {vault : Vault}

theorem reveal_held (keeps : Keeps env s vault) (pub : Key) (holding : Holding) (held : vault.held pub = some holding) :
    s.reveal env pub = some (holding.secret env vault.seed) := by
  obtain ⟨account, owner, typed⟩ := keeps.owned pub holding held
  have entry : s.entryGetRaw pub = ⟨holding.stored s.check, 0⟩ := by
    rw [WalletStore.entryGetRaw, keeps.held pub account, held]
    rfl
  rw [WalletStore.reveal, entry, typed]
  cases holding with
  | adhoc prv =>
      simp only [Holding.type, Holding.stored, Holding.secret, xor_cancel] at owner ⊢
      rw [WalletStore.filter_owner, if_pos owner.symm]
  | derived index =>
      simp only [Holding.type, Holding.stored, Holding.secret, marker_index, keeps.seed] at owner ⊢
      rw [WalletStore.filter_owner, if_pos owner.symm]

theorem unused_key_returned (fuel : Nat) (index found : BitVec 32) (pub : Key)
    (returned : s.unusedKey env fuel index = .ok (found, pub)) :
    s.validPassword env = true ∧ pub = env.publicKey (env.deterministicKey (s.seed env) found) ∧ s.entries.get pub = none := by
  induction fuel generalizing index with
  | zero => cases returned
  | succ fuel ih =>
      by_cases valid : s.validPassword env = true
      · simp only [WalletStore.unusedKey, WalletStore.deterministicKey, ensure_true _ valid, bind_ok] at returned
        split at returned
        · exact ih (index + 1) returned
        · next absent =>
            obtain ⟨rfl, rfl⟩ := Prod.mk.inj (Except.ok.inj returned)
            exact ⟨valid, rfl, by simpa [WalletStore.exists] using absent⟩
      · simp only [WalletStore.unusedKey, WalletStore.deterministicKey, ensure, if_neg valid, bind_error] at returned
        cases returned

theorem unused_key_returns (valid : s.validPassword env = true) (distance fuel : Nat) (index target : BitVec 32)
    (enough : distance < fuel) (ahead : index + BitVec.ofNat 32 distance = target)
    (unused : s.entries.get (env.publicKey (env.deterministicKey (s.seed env) target)) = none) :
    ∃ out, s.unusedKey env fuel index = .ok out := by
  induction distance generalizing fuel index with
  | zero =>
      obtain ⟨fuel, rfl⟩ := Nat.exists_eq_add_of_lt enough
      have here : index = target := by rw [← ahead]; exact (BitVec.add_zero index).symm
      simp only [WalletStore.unusedKey, WalletStore.deterministicKey, ensure_true _ valid, bind_ok, WalletStore.exists, here, unused]
      exact ⟨_, rfl⟩
  | succ distance ih =>
      obtain ⟨fuel, rfl⟩ := Nat.exists_eq_add_of_lt enough
      simp only [WalletStore.unusedKey, WalletStore.deterministicKey, ensure_true _ valid, bind_ok]
      split
      · refine ih _ (index + 1) (by omega) ?_
        rw [← ahead, BitVec.add_assoc]
        congr 1
        apply BitVec.eq_of_toNat_eq
        simp [BitVec.toNat_add, Nat.add_comm]
      · exact ⟨_, rfl⟩

theorem deterministic_insert_returns (valid : s.validPassword env = true) (target : BitVec 32)
    (unused : s.entries.get (env.publicKey (env.deterministicKey (s.seed env) target)) = none) :
    ∃ out, s.deterministicInsert env (2 ^ 32) = .ok out := by
  obtain ⟨out, found⟩ := unused_key_returns valid (target - s.deterministicIndexGet).toNat (2 ^ 32) s.deterministicIndexGet target
    (target - s.deterministicIndexGet).isLt
    (by rw [BitVec.ofNat_toNat, BitVec.setWidth_eq]; rw [BitVec.add_comm, BitVec.sub_add_cancel]) unused
  exact ⟨_, by rw [WalletStore.deterministicInsert, found, bind_ok]⟩

theorem keeps_derived (proper : ∀ prv, specialCount ≤ env.publicKey prv) (keeps : Keeps env s vault) (fuel : Nat)
    (out : WalletStore × Account) (returned : s.deterministicInsert env fuel = .ok out) :
    Keeps env out.1 (vault.insert out.2 (.derived ((out.1.entryGetRaw out.2).key.setWidth 32))) := by
  unfold WalletStore.deterministicInsert at returned
  obtain ⟨⟨index, pub⟩, search, stored⟩ := bind_returned returned
  obtain ⟨valid, owner, _⟩ := unused_key_returned fuel _ index pub search
  obtain rfl := Except.ok.inj stored
  have account : specialCount ≤ pub := owner ▸ proper _
  have seed : s.seed env = vault.seed := (WalletStore.seed_valid s valid).trans keeps.seed
  have recorded :
      (((s.entryPutRaw pub ⟨marker index, 0⟩).deterministicIndexSet (index + 1)).entryGetRaw pub).key.setWidth 32 = index := by
    rw [WalletStore.deterministicIndexSet, WalletStore.entry_get_put, if_neg (account_ne _ account (by decide)),
      WalletStore.entry_get_put, if_pos rfl, marker_index]
  rw [recorded]
  refine keeps_index (keeps_insert keeps pub (.derived index) account ?_ (marker_type index 0)) (index + 1)
  rw [owner, seed]
  rfl

theorem insert_adhoc_unlocked (prv : Key) (out : WalletStore × Account) (returned : s.insertAdhoc env prv = .ok out) :
    s.validPassword env = true := by
  by_contra locked
  rw [WalletStore.insertAdhoc, ensure, if_neg locked] at returned
  cases returned

theorem keeps_adhoc (proper : ∀ prv, specialCount ≤ env.publicKey prv) (keeps : Keeps env s vault) (prv : Key)
    (out : WalletStore × Account) (long : 2 ^ 64 ≤ (env.encrypt prv (s.walletKey env) s.iv).toNat)
    (returned : s.insertAdhoc env prv = .ok out) :
    Keeps env out.1 (vault.insert out.2 (.adhoc prv)) := by
  have valid := insert_adhoc_unlocked prv out returned
  rw [WalletStore.insert_adhoc_valid s valid] at returned
  cases returned
  rw [WalletStore.encrypt_valid s valid] at long
  exact keeps_insert keeps _ (.adhoc prv) (proper prv) rfl (if_pos long)

theorem with_seed_keeps (valid : s.validPassword env = true) (current : s.version = 3)
    (mem : s.walletKeyMem.value = (s.entryGetRaw walletKeySpecial).key)
    (vacant : ∀ pub, specialCount ≤ pub → s.entries.get pub = none) (seed : Key) :
    ∃ t, s.withSeed env seed = .ok t ∧ t.validPassword env = true ∧ Keeps env t ⟨seed, fun _ => none, none⟩ := by
  obtain ⟨entries, cleared, accounts, seeded, specials⟩ := WalletStore.seed_set_valid s valid seed
  have kept : ∀ special, special < specialCount → special ≠ deterministicIndexSpecial → special ≠ seedSpecial →
      ((entries.put deterministicIndexSpecial ⟨0, 0⟩).get special).getD ⟨0, 0⟩ = s.entryGetRaw special := by
    intro special low notIndex notSeed
    rw [Table.get_put_ne _ _ _ _ notIndex, specials special low notIndex notSeed]
    rfl
  have planted : ((entries.put deterministicIndexSpecial ⟨0, 0⟩).get seedSpecial).getD ⟨0, 0⟩ = ⟨seed ^^^ s.check, 0⟩ := by
    rw [Table.get_put_ne _ _ _ _ (by decide), seeded]
    rfl
  refine ⟨_, by rw [WalletStore.withSeed, cleared, bind_ok], ?_⟩
  have frame : Frame s ⟨entries.put deterministicIndexSpecial ⟨0, 0⟩, s.password,
      s.walletKeyMem.valueSet (((entries.put deterministicIndexSpecial ⟨0, 0⟩).get walletKeySpecial).getD ⟨0, 0⟩).key⟩ :=
    { version := congrArg (fun value => value.key.setWidth 8) (kept versionSpecial (by decide) (by decide) (by decide))
      check := congrArg WalletValue.key (kept checkSpecial (by decide) (by decide) (by decide))
      salt := congrArg WalletValue.key (kept saltSpecial (by decide) (by decide) (by decide))
      mem := by rw [value_set_value, kept walletKeySpecial (by decide) (by decide) (by decide), mem] }
  refine ⟨(valid_frame frame rfl).trans valid, frame.version.trans current, ?_, ?_, (fun _ _ held => by cases held),
    (fun _ chosen => by cases chosen)⟩
  · refine (congrArg₂ (· ^^^ ·) (congrArg WalletValue.key planted) frame.check).trans ?_
    exact xor_cancel seed s.check
  · intro pub account
    refine (Table.get_put_ne _ _ _ _ (account_ne _ account (by decide))).trans ?_
    rw [accounts pub account, vacant pub account]
    rfl

section Creation

variable (representative salt walletKey : Key) (parts parts' : List Key)

theorem unseeded_valid : (WalletStore.unseeded env representative salt walletKey parts parts').validPassword env = true := by
  have mem : (WalletStore.unseeded env representative salt walletKey parts parts').walletKeyMem.value =
      env.encrypt walletKey 0 (salt.extractLsb' 128 128) := value_set_value _ _
  have zero : (WalletStore.unseeded env representative salt walletKey parts parts').password.value = 0 := value_set_value _ _
  have iv : (WalletStore.unseeded env representative salt walletKey parts parts').iv = salt.extractLsb' 128 128 := rfl
  have check : (WalletStore.unseeded env representative salt walletKey parts parts').check =
      env.encrypt 0 walletKey (salt.extractLsb' 128 128) := rfl
  rw [WalletStore.valid_iff, WalletStore.walletKey, mem, zero, iv, check, WalletEnv.encrypt, WalletEnv.decrypt, xor_cancel,
    WalletEnv.encrypt, zero_xor]

theorem unseeded_accounts (pub : Key) (account : specialCount ≤ pub) :
    (WalletStore.unseeded env representative salt walletKey parts parts').entries.get pub = none := by
  have other : ∀ special, special < specialCount → pub ≠ special := fun special low => account_ne special account low
  simp only [WalletStore.unseeded, WalletStore.versionPut, WalletStore.passwordSet, WalletStore.entryPutRaw]
  rw [Table.get_put_ne _ _ _ _ (other _ (by decide)), Table.get_put_ne _ _ _ _ (other _ (by decide)),
    Table.get_put_ne _ _ _ _ (other _ (by decide)), Table.get_put_ne _ _ _ _ (other _ (by decide)),
    Table.get_put_ne _ _ _ _ (other _ (by decide)), Table.get_empty]

theorem create_keeps (seed : Key) :
    ∃ s, WalletStore.create env representative salt walletKey seed parts parts' = .ok s ∧ s.validPassword env = true ∧
      Keeps env s ⟨seed, fun _ => none, none⟩ :=
  with_seed_keeps (unseeded_valid representative salt walletKey parts parts') rfl (value_set_value _ _)
    (unseeded_accounts representative salt walletKey parts parts') seed

end Creation

end Steps

theorem run_keeps {env : WalletEnv} (proper : ∀ prv, specialCount ≤ env.publicKey prv) {s : WalletStore} {vault : Vault}
    (run : WalletRun env s vault) : Keeps env s vault := by
  induction run with
  | create representative salt walletKey seed parts parts' s created =>
      obtain ⟨t, made, _, keeps⟩ := @create_keeps env representative salt walletKey parts parts' seed
      rw [created] at made
      cases made
      exact keeps
  | insertAdhoc s vault prv out _ long returned ih => exact keeps_adhoc proper ih prv out long returned
  | deterministicInsert fuel s vault out _ returned ih => exact keeps_derived proper ih fuel out returned
  | seedSet s vault prv s' _ valid returned ih => exact keeps_seed ih prv valid returned
  | erase s vault pub s' _ account returned ih => exact keeps_erase ih pub account returned
  | rekey s vault password _ changed ih =>
      have valid := rekey_changed password changed
      rw [rekey_valid valid]
      exact keeps_rekey ih valid password
  | rekeyRefused s vault password _ refused ih =>
      have locked : s.validPassword env = false := by
        by_contra valid
        rw [rekey_valid (Bool.eq_true_of_not_eq_false valid)] at refused
        cases refused
      rw [rekey_locked locked]
      exact ih
  | attemptPassword random s vault password out _ returned ih =>
      rw [attempt_current ih.current] at returned
      cases returned
      exact keeps_password ih _

theorem wallet_keeps_keys (env : WalletEnv) (proper : ∀ prv, specialCount ≤ env.publicKey prv) (s : WalletStore) (vault : Vault)
    (run : WalletRun env s vault) :
    (s.validPassword env = true → s.seed env = vault.seed ∧
      ∀ pub holding, vault.held pub = some holding → s.fetch env pub = .ok (some (holding.secret env vault.seed))) ∧
    (∀ pub value, specialCount ≤ pub → s.entries.get pub = some value → keyType value = .deterministic →
      ∃ index, value.key = marker index ∧ env.publicKey (env.deterministicKey vault.seed index) = pub) ∧
    (∀ password, (s.rekey env password).2 = false → ∀ pub, (s.rekey env password).1.fetch env pub = s.fetch env pub) ∧
    (∀ password random, vault.phrase = some password → ∃ t, s.attemptPassword env random password = .ok (t, false)) ∧
    (s.validPassword env = true → ∀ seed, ∃ t, s.seedSet env seed = .ok t ∧ t.seed env = seed ∧
      ∀ pub, specialCount ≤ pub → t.entries.get pub = (s.entries.get pub).filter fun value => keyType value ≠ .deterministic) ∧
    (s.validPassword env = true → (∃ index, s.entries.get (env.publicKey (env.deterministicKey vault.seed index)) = none) →
      ∃ out, s.deterministicInsert env (2 ^ 32) = .ok out) := by
  have keeps := run_keeps proper run
  refine ⟨fun valid => ⟨(WalletStore.seed_valid s valid).trans keeps.seed, fun pub holding held => ?_⟩, ?_, ?_, ?_, ?_, ?_⟩
  · rw [WalletStore.fetch_valid s valid, reveal_held keeps pub holding held]
  · intro pub value account stored typed
    have listed := (keeps.held pub account).symm.trans stored
    obtain ⟨holding, held, rfl⟩ := Option.map_eq_some_iff.mp listed
    obtain ⟨_, owner, kind⟩ := keeps.owned pub holding held
    cases holding with
    | adhoc prv =>
        rw [kind] at typed
        cases typed
    | derived index => exact ⟨index, rfl, owner⟩
  · intro password changed pub
    have valid := rekey_changed password changed
    rw [rekey_valid valid, WalletStore.fetch_valid _ (rekeyed_valid valid password), WalletStore.fetch_valid s valid,
      rekeyed_reveal proper]
  · intro password random chosen
    rw [attempt_current keeps.current, (valid_password_set password).mpr (keeps.phrase password chosen)]
    exact ⟨_, rfl⟩
  · intro valid seed
    obtain ⟨t, returned, frame, same, seeded, accounts⟩ := seed_set_frame valid seed
    have opened : t.validPassword env = true := (valid_frame frame (by rw [same])).trans valid
    refine ⟨t, returned, ?_, accounts⟩
    rw [WalletStore.seed_valid t opened, seeded, frame.check, xor_cancel]
  · intro valid unused
    obtain ⟨index, absent⟩ := unused
    refine deterministic_insert_returns valid index ?_
    rw [WalletStore.seed_valid s valid, keeps.seed]
    exact absent

def sampleWalletEnv : WalletEnv where
  phs password _ := BitVec.ofNat 256 password.length
  publicKey prv := prv ||| 16
  blake2b bytes := BitVec.ofNat 256 (natBE bytes % 1000003)
  keystream key _ := key ^^^ (1#256 <<< 200)

theorem sample_keys_proper (prv : Key) : specialCount ≤ sampleWalletEnv.publicKey prv := by
  change 7 ≤ (prv ||| 16).toNat
  rw [BitVec.toNat_or]
  exact le_trans (by decide) Nat.right_le_or

-- A wallet with one account and a password, into which a wrong one has been entered.
theorem wallet_keeps_keys_sample : ∃ s vault, WalletRun sampleWalletEnv s vault ∧
    vault.held (sampleWalletEnv.publicKey 77) = some (.adhoc 77) ∧
    s.fetch sampleWalletEnv (sampleWalletEnv.publicKey 77) = .ok none ∧
    ∃ t, s.attemptPassword sampleWalletEnv 0 "word" = .ok (t, false) ∧
      t.fetch sampleWalletEnv (sampleWalletEnv.publicKey 77) = .ok (some 77) := by
  obtain ⟨s, created, valid, _⟩ := @create_keeps sampleWalletEnv 0 1 9 [] [] 5
  let inserted := s.entryPutRaw (sampleWalletEnv.publicKey 77) ⟨77 ^^^ s.check, 0⟩
  let wrong :=
    (rekeyed sampleWalletEnv inserted "word").passwordSet ((rekeyed sampleWalletEnv inserted "word").deriveKey sampleWalletEnv "wrong")
  have computed : (match WalletStore.create sampleWalletEnv 0 1 9 5 [] [] with
      | .ok s =>
          let inserted := s.entryPutRaw (sampleWalletEnv.publicKey 77) ⟨77 ^^^ s.check, 0⟩
          let changed := rekeyed sampleWalletEnv inserted "word"
          decide (2 ^ 64 ≤ (sampleWalletEnv.encrypt 77 (s.walletKey sampleWalletEnv) s.iv).toNat) && inserted.validPassword
            sampleWalletEnv &&
            !(changed.passwordSet (changed.deriveKey sampleWalletEnv "wrong")).validPassword sampleWalletEnv
      | .error _ => false) = true := by decide +kernel
  rw [created] at computed
  simp only [Bool.and_eq_true, decide_eq_true_eq, Bool.not_eq_true'] at computed
  obtain ⟨⟨long, unlocked⟩, locked⟩ := computed
  have first := @WalletRun.create sampleWalletEnv 0 1 9 5 [] [] s created
  have second : WalletRun sampleWalletEnv inserted _ := .insertAdhoc s _ 77 _ first long (WalletStore.insert_adhoc_valid s valid 77)
  have third := WalletRun.rekey inserted _ "word" second (by rw [rekey_valid unlocked])
  rw [rekey_valid unlocked] at third
  have keeps := run_keeps sample_keys_proper third
  have fourth : WalletRun sampleWalletEnv wrong _ := .attemptPassword 0 _ _ "wrong" _ third (attempt_current keeps.current 0 "wrong")
  obtain ⟨_, _, _, opens, _⟩ := wallet_keeps_keys sampleWalletEnv sample_keys_proper wrong _ fourth
  obtain ⟨t, entered⟩ := opens "word" 0 rfl
  have fifth := WalletRun.attemptPassword 0 _ _ "word" _ fourth entered
  obtain ⟨fetches, _⟩ := wallet_keeps_keys sampleWalletEnv sample_keys_proper t _ fifth
  have reopened : t.validPassword sampleWalletEnv = true := by
    rw [attempt_current (run_keeps sample_keys_proper fourth).current] at entered
    simp only [Except.ok.injEq, Prod.mk.injEq, Bool.not_eq_false'] at entered
    rw [← entered.1]
    exact entered.2
  have held : (Vault.insert ⟨5, fun _ => none, none⟩ (sampleWalletEnv.publicKey 77) (.adhoc 77)).held (sampleWalletEnv.publicKey 77) =
    some (.adhoc 77) := by
    rw [Vault.held_insert, if_pos rfl]
  exact ⟨wrong, _, fourth, held, WalletStore.fetch_locked wrong locked _, t, entered, (fetches reopened).2 _ (.adhoc 77) held⟩

end Rai
