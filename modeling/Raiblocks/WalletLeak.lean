import Raiblocks.WalletKeys

set_option autoImplicit false

namespace Rai

open Kit

-- What can be computed from the wallet file without a password: the check is the encryption of zero, so it is the
-- stream that the seed and the keys are encrypted with.
def entryKey (entries : Table Key WalletValue) (pub : Key) : Key := ((entries.get pub).getD ⟨0, 0⟩).key

def recoveredSeed (entries : Table Key WalletValue) : Key := entryKey entries seedSpecial ^^^ entryKey entries checkSpecial

def recoveredKey (entries : Table Key WalletValue) (pub : Account) : Key := entryKey entries pub ^^^ entryKey entries checkSpecial

def recoveredFirst (entries : Table Key WalletValue) : Key :=
  match entries.rows.filter fun row => specialCount ≤ row.1 with
  | [] => 0
  | row :: _ => recoveredKey entries row.1

section Recovery

variable {env : WalletEnv} {s : WalletStore} {vault : Vault}

theorem recovered_seed (keeps : Keeps env s vault) : recoveredSeed s.entries = vault.seed := keeps.seed

theorem recovered_held (keeps : Keeps env s vault) (pub : Account) (prv : Key) (held : vault.held pub = some (.adhoc prv)) :
    recoveredKey s.entries pub = prv := by
  have entry : entryKey s.entries pub = prv ^^^ s.check := by
    rw [entryKey, keeps.held pub (keeps.owned pub _ held).1, held]
    rfl
  rw [recoveredKey, entry]
  exact xor_cancel prv s.check

theorem recovered_put (pub : Account) (prv : Key) (account : specialCount ≤ pub) :
    recoveredKey (s.entryPutRaw pub ⟨prv ^^^ s.check, 0⟩).entries pub = prv ∧
      recoveredSeed (s.entryPutRaw pub ⟨prv ^^^ s.check, 0⟩).entries = recoveredSeed s.entries := by
  have check : entryKey (s.entryPutRaw pub ⟨prv ^^^ s.check, 0⟩).entries checkSpecial = s.check := by
    rw [entryKey, WalletStore.get_put, if_neg (account_ne _ account (by decide)).symm]
    rfl
  constructor
  · rw [recoveredKey, check, entryKey, WalletStore.get_put, if_pos rfl]
    exact xor_cancel prv s.check
  · rw [recoveredSeed, check, entryKey, WalletStore.get_put, if_neg (account_ne _ account (by decide)).symm]
    rfl

theorem recovered_only (vacant : s.accounts = []) (pub : Account) (value : WalletValue) (account : specialCount ≤ pub) :
    recoveredFirst (s.entryPutRaw pub value).entries = recoveredKey (s.entryPutRaw pub value).entries pub := by
  have lists := Table.lists_rows (s.entryPutRaw pub value).entries
  have only : ∀ row ∈ (s.entryPutRaw pub value).entries.rows.filter (fun row => decide (specialCount ≤ row.1)), row.1 = pub := by
    intro row member
    obtain ⟨listed, known⟩ := List.mem_filter.mp member
    by_contra other
    have before : s.entries.get row.1 = some row.2 := by
      rw [← (lists.entries row.1 row.2).mp listed, WalletStore.get_put, if_neg other]
    have present : row ∈ s.accounts := List.mem_filter.mpr ⟨((Table.lists_rows s.entries).entries row.1 row.2).mpr before, known⟩
    rw [vacant] at present
    cases present
  have stored : (pub, value) ∈ (s.entryPutRaw pub value).entries.rows.filter (fun row => decide (specialCount ≤ row.1)) := by
    refine List.mem_filter.mpr ⟨(lists.entries pub value).mpr ?_, decide_eq_true account⟩
    rw [WalletStore.get_put, if_pos rfl]
  unfold recoveredFirst
  split
  · next none => rw [none] at stored; cases stored
  · next row rest first => rw [only row (first ▸ List.mem_cons_self)]

end Recovery

-- The three functions take nothing but the file, and are right for every wallet, whatever its keys and passwords are.
theorem wallet_file_reveals (env : WalletEnv) (proper : ∀ prv, specialCount ≤ env.publicKey prv) (s : WalletStore) (vault : Vault)
    (run : WalletRun env s vault) :
    recoveredSeed s.entries = vault.seed ∧ (∀ pub prv, vault.held pub = some (.adhoc prv) → recoveredKey s.entries pub = prv) ∧
      ∀ prv out, s.insertAdhoc env prv = .ok out → recoveredSeed out.1.entries = vault.seed ∧ recoveredKey out.1.entries out.2 = prv ∧
        (s.accounts = [] → recoveredFirst out.1.entries = prv) := by
  have keeps := run_keeps proper run
  refine ⟨recovered_seed keeps, recovered_held keeps, fun prv out returned => ?_⟩
  have valid := insert_adhoc_unlocked prv out returned
  rw [WalletStore.insert_adhoc_valid s valid] at returned
  cases returned
  obtain ⟨here, seed⟩ := @recovered_put s (env.publicKey prv) prv (proper prv)
  refine ⟨seed.trans (recovered_seed keeps), here, fun vacant => ?_⟩
  exact (recovered_only vacant (env.publicKey prv) _ (proper prv)).trans here

def sampleFile : Except Fault (Table Key WalletValue) := do
  let s ← WalletStore.create sampleWalletEnv 0 1 9 5 [] []
  let out ← (s.rekey sampleWalletEnv "word").1.insertAdhoc sampleWalletEnv 77
  .ok out.1.entries

theorem wallet_file_reveals_sample : ∃ entries, sampleFile = .ok entries ∧ recoveredFirst entries = 77 ∧ recoveredSeed entries = 5 := by
  obtain ⟨s, created, valid, keeps⟩ := @create_keeps sampleWalletEnv 0 1 9 [] [] 5
  have run := WalletRun.rekey s _ "word" (.create 0 1 9 5 [] [] s created) (by rw [rekey_valid valid])
  have unlocked : (s.rekey sampleWalletEnv "word").1.validPassword sampleWalletEnv = true := by
    rw [rekey_valid valid]
    exact rekeyed_valid valid "word"
  have inserted := WalletStore.insert_adhoc_valid _ unlocked 77
  obtain ⟨_, _, after⟩ := wallet_file_reveals sampleWalletEnv sample_keys_proper _ _ run
  obtain ⟨seeded, _, only⟩ := after 77 _ inserted
  have vacant : (s.rekey sampleWalletEnv "word").1.accounts = [] := by
    have computed : (match WalletStore.create sampleWalletEnv 0 1 9 5 [] [] with
        | .ok s => (s.rekey sampleWalletEnv "word").1.accounts
        | .error _ => []) = [] := by decide +kernel
    rwa [created] at computed
  refine ⟨_, ?_, only vacant, seeded⟩
  rw [sampleFile, created, bind_ok, inserted, bind_ok]

theorem file_gives_secrets : (match sampleFile with
    | .ok entries => some (recoveredFirst entries, recoveredSeed entries)
    | .error _ => none) = some (77, 5) := by decide +kernel

end Rai
