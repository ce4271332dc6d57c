import Raiblocks.WalletImport

set_option autoImplicit false

namespace Rai

open Kit

namespace WalletStore

def earlyKeys (env : WalletEnv) (s : WalletStore) : List Key :=
  [env.decrypt (s.entryGetRaw walletKeySpecial).key 0 s.iv, env.decrypt (s.entryGetRaw walletKeySpecial).key (s.deriveKey env "") s.iv]

section Upgrade

variable {env : WalletEnv} {s : WalletStore}

theorem repaired_known {pub prv : Key} {value : WalletValue} (known : s.revealValue env pub value = some prv) :
    s.repaired env pub value = value := by
  rw [repaired, repairedBy, known]
  rfl

theorem reveal_encrypted (prv : Key) (large : 2 ^ 64 ≤ (prv ^^^ s.check).toNat) :
    s.revealValue env (env.publicKey prv) ⟨prv ^^^ s.check, 0⟩ = some prv := by
  have adhoc : keyType ⟨prv ^^^ s.check, 0⟩ = .adhoc := if_pos large
  rw [revealValue, adhoc]
  simp only [xor_cancel, Option.filter_some, decide_true, if_true]

theorem repaired_early (distinct : Function.Injective env.publicKey) (value : WalletValue) (key : Key) (early : key ∈ s.earlyKeys env)
    (large : 2 ^ 64 ≤ (env.decrypt value.key key s.iv ^^^ s.check).toNat) :
    s.revealValue env (env.publicKey (env.decrypt value.key key s.iv))
    (s.repaired env (env.publicKey (env.decrypt value.key key s.iv)) value) =
      some (env.decrypt value.key key s.iv) := by
  cases known : s.revealValue env (env.publicKey (env.decrypt value.key key s.iv)) value with
  | some prv =>
      have owner := reveal_value_owner s _ prv value known
      rw [repaired_known known, known, distinct owner]
  | none =>
      rw [repaired, repairedBy, known, if_neg (by simp)]
      split
      · next zero =>
          rw [distinct zero]
          exact reveal_encrypted _ large
      · next notZero =>
          split
          · next empty =>
              rw [distinct empty]
              exact reveal_encrypted _ large
          · next notEmpty =>
              rcases List.mem_pair.mp early with rfl | rfl
              · exact absurd rfl notZero
              · exact absurd rfl notEmpty

/-- Entering the right password repairs the keys of a first version, and takes none away. -/
theorem upgrade_repairs (env : WalletEnv) (s : WalletStore) (random : Key) (password : String) (first : s.version = 1)
    (correct : (s.passwordSet (s.deriveKey env password)).validPassword env = true) (distinct : Function.Injective env.publicKey)
    (large : ∀ prv value, (env.publicKey prv, value) ∈ s.accounts →
      2 ^ 64 ≤ (env.encrypt prv ((s.passwordSet (s.deriveKey env password)).walletKey env) s.iv).toNat) :
    ∃ t, s.attemptPassword env random password = .ok (t, false) ∧
      (∀ pub prv, specialCount ≤ pub → (s.passwordSet (s.deriveKey env password)).fetch env pub = .ok (some prv) →
        t.fetch env pub = .ok (some prv)) ∧
      ∀ row ∈ s.accounts, ∀ key ∈ s.earlyKeys env, env.publicKey (env.decrypt row.2.key key s.iv) = row.1 →
        t.fetch env row.1 = .ok (some (env.decrypt row.2.key key s.iv)) := by
  have version : (s.passwordSet (s.deriveKey env password)).version = 1 := first
  have undropped : ∀ value, ¬ (s.passwordSet (s.deriveKey env password)).Dropped value := by
    intro value dropped
    rw [Dropped, version] at dropped
    exact absurd dropped.1 (by decide)
  obtain ⟨t, upgraded, opened⟩ := first_upgraded _ correct version
  have reveals : ∀ pub value, specialCount ≤ pub → s.entries.get pub = some value → t.fetch env pub =
      .ok ((s.passwordSet (s.deriveKey env password)).revealValue env pub
        ((s.passwordSet (s.deriveKey env password)).repaired env pub value)) := by
    intro pub value account held
    rw [fetch_valid t opened.valid, opened.reveals pub value account held (undropped value), recovered, if_pos version]
  refine ⟨t, ?_, ?_, ?_⟩
  · simp only [attemptPassword, correct, if_true, upgrade, version, upgraded, bind_ok]
  · intro pub prv account fetched
    rw [fetch_valid _ correct] at fetched
    have revealed := Except.ok.inj fetched
    cases held : s.entries.get pub with
    | none =>
        rw [reveal_missing (s.passwordSet _) pub held] at revealed
        cases revealed
    | some value =>
        rw [reveal_entry (s.passwordSet _) pub value held] at revealed
        rw [reveals pub value account held, repaired_known revealed, revealed]
  · rintro ⟨pub, value⟩ member key early owner
    dsimp only at owner ⊢
    obtain ⟨held, account⟩ := (s.mem_accounts (pub, value)).mp member
    have bound := large (env.decrypt value.key key s.iv) value (owner ▸ member)
    have same : env.encrypt (env.decrypt value.key key s.iv) ((s.passwordSet (s.deriveKey env password)).walletKey env) s.iv =
        env.decrypt value.key key s.iv ^^^ s.check := encrypt_valid _ correct _
    rw [same] at bound
    rw [reveals pub value account held]
    subst owner
    exact congrArg Except.ok (repaired_early distinct value key early bound)

end Upgrade

end WalletStore

def earlyWalletEnv : WalletEnv where
  phs password _ := BitVec.ofNat 256 (password.length + 3)
  publicKey prv := prv + 16
  blake2b _ := 0
  keystream key _ := key ^^^ (1#256 <<< 200)

def earlyWallet : WalletStore :=
  let sealed : Key := earlyWalletEnv.encrypt 9 7 0
  let s : WalletStore := ⟨.empty, Fan.start 0 [], Fan.start sealed []⟩
  let s := s.versionPut 1
  let s := s.entryPutRaw walletKeySpecial ⟨sealed, 0⟩
  let s := s.entryPutRaw checkSpecial ⟨earlyWalletEnv.encrypt 0 9 0, 0⟩
  s.entryPutRaw 93 ⟨earlyWalletEnv.encrypt 77 (earlyWalletEnv.decrypt sealed 0 0) 0, 0⟩

theorem upgrade_repairs_sample : earlyWallet.accounts.map Prod.fst = [93] ∧
    (earlyWallet.passwordSet (earlyWallet.deriveKey earlyWalletEnv "word")).fetch earlyWalletEnv 93 = .ok none ∧
    ∃ t, earlyWallet.attemptPassword earlyWalletEnv 0 "word" = .ok (t, false) ∧ t.fetch earlyWalletEnv 93 = .ok (some 77) := by
  have listed :
    earlyWallet.accounts = [(93, ⟨earlyWalletEnv.encrypt 77 (earlyWalletEnv.decrypt (earlyWalletEnv.encrypt 9 7 0) 0 0) 0, 0⟩)] := by
    decide +kernel
  have distinct : Function.Injective earlyWalletEnv.publicKey := fun a b same => (BitVec.add_left_inj 16#256).mp same
  have large : ∀ prv value, (earlyWalletEnv.publicKey prv, value) ∈ earlyWallet.accounts →
      2 ^ 64 ≤
      (earlyWalletEnv.encrypt prv ((earlyWallet.passwordSet (earlyWallet.deriveKey earlyWalletEnv "word")).walletKey earlyWalletEnv)
        earlyWallet.iv).toNat := by
    intro prv value member
    rw [listed, List.mem_singleton] at member
    have known : prv = 77 := distinct (congrArg Prod.fst member)
    rw [known]
    decide +kernel
  obtain ⟨t, entered, _, early⟩ := WalletStore.upgrade_repairs earlyWalletEnv earlyWallet 0 "word" (by decide +kernel)
    (by decide +kernel) distinct large
  have fetched := early (93, ⟨earlyWalletEnv.encrypt 77 (earlyWalletEnv.decrypt (earlyWalletEnv.encrypt 9 7 0) 0 0) 0, 0⟩)
    (by rw [listed]; exact List.mem_singleton_self _)
    (earlyWalletEnv.decrypt (earlyWallet.entryGetRaw walletKeySpecial).key 0 earlyWallet.iv)
    List.mem_cons_self (by decide +kernel)
  refine ⟨by rw [listed]; rfl, by decide +kernel, t, entered, fetched.trans ?_⟩
  decide +kernel

end Rai
