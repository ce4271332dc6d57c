import Raiblocks.Kit.Runs
import Raiblocks.WalletKeys

set_option autoImplicit false

namespace Rai

open Kit

-- What a thread stores, by `wallet::insert_adhoc` or by `seed_set`.
inductive Secret where
  | adhoc (prv : Key)
  | seed (prv : Key)

-- Where that thread is. Each of its stages but the last two ends with a step that no other thread divides: the check
-- of the password, the check of it in the assertion, the reading of the wallet key, the writing of the entry.
inductive Stage where
  | checking
  | asserting
  | reading
  | writing (key : Key)
  | clearing
  | stored
  | refused
deriving DecidableEq

namespace Secret

def value : Secret → Key
  | .adhoc prv => prv
  | .seed prv => prv

def place (env : WalletEnv) : Secret → Key
  | .adhoc prv => env.publicKey prv
  | .seed _ => seedSpecial

-- `seed_set` has no check of its own and clears the markers at the end.
def first : Secret → Stage
  | .adhoc _ => .checking
  | .seed _ => .reading

def next : Secret → Stage
  | .adhoc _ => .stored
  | .seed _ => .clearing

end Secret

structure Storing where
  wallet : WalletStore
  stage : Stage

inductive StoringAction where
  | thread
  | attemptPassword (random : Key) (password : String)
  | rekey (password : String)

namespace Storing

section Steps

variable (env : WalletEnv) (secret : Secret)

def thread (s : Storing) : Except Fault Storing :=
  match s.stage with
  | .checking => .ok { s with stage := if s.wallet.validPassword env then .asserting else .refused }
  | .asserting => do
      ensure (s.wallet.validPassword env = true)
      .ok { s with stage := .reading }
  | .reading => .ok { s with stage := .writing (s.wallet.walletKey env) }
  | .writing key =>
      .ok ⟨s.wallet.entryPutRaw (secret.place env) ⟨env.encrypt secret.value key s.wallet.iv, 0⟩, secret.next⟩
  | .clearing => do
      let wallet ← s.wallet.deterministicClear
      .ok ⟨wallet, .stored⟩
  | .stored => .ok s
  | .refused => .ok s

def step (s : Storing) : StoringAction → Except Fault Storing
  | .thread => s.thread env secret
  | .attemptPassword random password => do
      let out ← s.wallet.attemptPassword env random password
      .ok { s with wallet := out.1 }
  | .rekey password => .ok { s with wallet := (s.wallet.rekey env password).1 }

def Steps (s : Storing) (action : StoringAction) (t : Storing) : Prop := s.step env secret action = .ok t

def run (s : Storing) (actions : List StoringAction) : Except Fault Storing := actions.foldlM (step env secret) s

def Written (s : Storing) : Prop := s.stage = .clearing ∨ s.stage = .stored

def Retrieves (s : Storing) : Prop :=
  match secret with
  | .adhoc prv => s.wallet.fetch env (env.publicKey prv) = .ok (some prv)
  | .seed prv => s.wallet.seed env = prv

def Long (stream : Key) : Prop :=
  match secret with
  | .adhoc prv => 2 ^ 64 ≤ (prv ^^^ stream).toNat
  | .seed _ => True

def ReadsUnlocked (s : Storing) (action : StoringAction) : Prop :=
  action = .thread → s.stage = .reading → s.wallet.validPassword env = true ∧ Long secret s.wallet.check

def ReadsLocked (s : Storing) (action : StoringAction) : Prop :=
  action = .thread → s.stage = .reading →
    s.wallet.validPassword env = false ∧ Long secret (env.keystream (s.wallet.walletKey env) s.wallet.iv)

end Steps

theorem insert_alone (env : WalletEnv) (prv : Key) (s : WalletStore) (valid : s.validPassword env = true) :
    run env (.adhoc prv) ⟨s, .checking⟩ [.thread, .thread, .thread, .thread] =
      (s.insertAdhoc env prv).map fun out => ⟨out.1, .stored⟩ := by
  simp only [run, List.foldlM_cons, List.foldlM_nil, step, thread, if_pos valid, ensure_true _ valid, bind_ok, WalletStore.insertAdhoc]
  rfl

theorem seed_set_alone (env : WalletEnv) (prv : Key) (s : WalletStore) :
    run env (.seed prv) ⟨s, .reading⟩ [.thread, .thread, .thread] = (s.seedSet env prv).map fun t => ⟨t, .stored⟩ := by
  simp only [run, List.foldlM_cons, List.foldlM_nil, step, thread, bind_ok, WalletStore.seedSet, Secret.next]
  cases cleared : (s.entryPutRaw seedSpecial ⟨env.encrypt prv (s.walletKey env) s.iv, 0⟩).deterministicClear with
  | error fault => simp only [Secret.place, Secret.value, cleared, bind_error]; rfl
  | ok t => simp only [Secret.place, Secret.value, cleared, bind_ok]; rfl

end Storing

-- What holds along every run that has read a wallet key whose stream is good: the entry is the secret with such a stream.
structure Streams (env : WalletEnv) (secret : Secret) (base : WalletStore) (good : Key → Prop) (s : Storing) : Prop where
  version : s.wallet.version = 3
  check : s.wallet.check = base.check
  salt : s.wallet.salt = base.salt
  key : ∀ key, s.stage = .writing key → good (env.keystream key base.iv)
  clears : s.stage = .clearing → ∃ prv, secret = .seed prv
  entry : s.Written → ∃ stream, good stream ∧ s.wallet.entryGetRaw (secret.place env) = ⟨secret.value ^^^ stream, 0⟩

section Steps

variable {env : WalletEnv} {secret : Secret} {base : WalletStore} {good : Key → Prop} {s : Storing}

theorem secret_place (proper : ∀ prv, specialCount ≤ env.publicKey prv) (secret : Secret) :
    secret.place env ∉ [versionSpecial, checkSpecial, saltSpecial] ∧ secret.place env ≠ walletKeySpecial := by
  cases secret with
  | adhoc prv => exact ⟨account_other _ (proper prv), account_ne _ (proper prv) (by decide)⟩
  | seed prv => exact ⟨by change seedSpecial ∉ _; decide, by change seedSpecial ≠ _; decide⟩

theorem streams_iv (streams : Streams env secret base good s) : s.wallet.iv = base.iv := by
  rw [WalletStore.iv, streams.salt]
  rfl

theorem streams_stage (streams : Streams env secret base good s) (stage : Stage) (unread : ∀ key, stage ≠ .writing key)
    (unwritten : stage ≠ .clearing ∧ stage ≠ .stored) : Streams env secret base good { s with stage := stage } :=
  ⟨streams.version, streams.check, streams.salt, fun key here => absurd here (unread key), fun here => absurd here unwritten.1,
    fun written => absurd written (not_or.mpr unwritten)⟩

theorem streams_write (proper : ∀ prv, specialCount ≤ env.publicKey prv) (streams : Streams env secret base good s) (key : Key)
    (staged : s.stage = .writing key) : Streams env secret base good
      ⟨s.wallet.entryPutRaw (secret.place env) ⟨env.encrypt secret.value key s.wallet.iv, 0⟩, secret.next⟩ := by
  have frame := frame_put s.wallet (secret.place env) ⟨env.encrypt secret.value key s.wallet.iv, 0⟩ (secret_place proper secret).1
  refine ⟨frame.version.trans streams.version, frame.check.trans streams.check, frame.salt.trans streams.salt, ?_, ?_, ?_⟩
  · intro other here
    cases secret <;> cases here
  · intro here
    cases secret with
    | adhoc prv => cases here
    | seed prv => exact ⟨prv, rfl⟩
  · intro _
    refine ⟨_, streams.key key staged, ?_⟩
    rw [WalletStore.entry_get_put, if_pos rfl, WalletEnv.encrypt, streams_iv streams]

theorem streams_clear (streams : Streams env secret base good s) (staged : s.stage = .clearing) (wallet : WalletStore)
    (cleared : s.wallet.deterministicClear = .ok wallet) : Streams env secret base good ⟨wallet, .stored⟩ := by
  obtain ⟨prv, rfl⟩ := streams.clears staged
  obtain ⟨entries, returned, _, specials⟩ := WalletStore.deterministic_clear_ok s.wallet
  rw [returned] at cleared
  cases cleared
  have kept : ∀ special, special < specialCount → special ≠ deterministicIndexSpecial →
      ({ s.wallet with entries := entries } : WalletStore).entryGetRaw special = s.wallet.entryGetRaw special := by
    intro special low other
    simp only [WalletStore.entryGetRaw, specials special low other]
  have frame : Frame s.wallet { s.wallet with entries := entries } := frame_specials rfl fun special member =>
    kept special (frame_special special member).1 (frame_special special member).2.1
  refine ⟨frame.version.trans streams.version, frame.check.trans streams.check, frame.salt.trans streams.salt,
    (fun key here => by cases here), (fun here => by cases here), fun _ => ?_⟩
  obtain ⟨stream, kind, entry⟩ := streams.entry (Or.inl staged)
  exact ⟨stream, kind, (kept seedSpecial (by decide) (by decide)).trans entry⟩

theorem streams_thread (proper : ∀ prv, specialCount ≤ env.publicKey prv) (streams : Streams env secret base good s)
    (read : s.stage = .reading → good (env.keystream (s.wallet.walletKey env) base.iv)) (t : Storing)
    (taken : s.thread env secret = .ok t) : Streams env secret base good t := by
  unfold Storing.thread at taken
  cases staged : s.stage with
  | checking =>
      simp only [staged] at taken
      cases taken
      split
      · exact streams_stage streams _ (fun _ => Stage.noConfusion) ⟨Stage.noConfusion, Stage.noConfusion⟩
      · exact streams_stage streams _ (fun _ => Stage.noConfusion) ⟨Stage.noConfusion, Stage.noConfusion⟩
  | asserting =>
      simp only [staged, ensure] at taken
      split at taken
      · cases taken
        exact streams_stage streams _ (fun _ => Stage.noConfusion) ⟨Stage.noConfusion, Stage.noConfusion⟩
      · cases taken
  | reading =>
      simp only [staged] at taken
      cases taken
      refine ⟨streams.version, streams.check, streams.salt, fun key here => ?_, (fun here => by cases here), ?_⟩
      · cases here
        exact read staged
      · rintro (here | here) <;> cases here
  | writing key =>
      simp only [staged] at taken
      cases taken
      exact streams_write proper streams key staged
  | clearing =>
      simp only [staged] at taken
      obtain ⟨wallet, cleared, rest⟩ := bind_returned taken
      cases rest
      exact streams_clear streams staged wallet cleared
  | stored =>
      simp only [staged] at taken
      cases taken
      exact streams
  | refused =>
      simp only [staged] at taken
      cases taken
      exact streams

theorem streams_attempt (streams : Streams env secret base good s) (random : Key) (password : String) (t : Storing)
    (taken : s.step env secret (.attemptPassword random password) = .ok t) : Streams env secret base good t := by
  rw [Storing.step, attempt_current streams.version, bind_ok] at taken
  cases taken
  exact ⟨streams.version, streams.check, streams.salt, streams.key, streams.clears, streams.entry⟩

theorem streams_rekey (proper : ∀ prv, specialCount ≤ env.publicKey prv) (streams : Streams env secret base good s)
    (password : String) : Streams env secret base good { s with wallet := (s.wallet.rekey env password).1 } := by
  cases valid : s.wallet.validPassword env with
  | false =>
      rw [rekey_locked valid]
      exact streams
  | true =>
      rw [rekey_valid valid]
      refine ⟨(congrArg (fun value => value.key.setWidth 8) (rekeyed_entry password versionSpecial (by decide))).trans streams.version,
        (rekeyed_check password).trans streams.check, (rekeyed_salt password).trans streams.salt, streams.key, streams.clears,
        fun written => ?_⟩
      obtain ⟨stream, kind, entry⟩ := streams.entry written
      exact ⟨stream, kind, (rekeyed_entry password _ (secret_place proper secret).2).trans entry⟩

theorem trail_streams (proper : ∀ prv, specialCount ≤ env.publicKey prv) (meets : Storing → StoringAction → Prop) (start t : Storing)
    (fresh : start.stage = secret.first) (current : start.wallet.version = 3)
    (reads : ∀ s, Streams env secret start.wallet good s → meets s .thread → s.stage = .reading →
      good (env.keystream (s.wallet.walletKey env) s.wallet.iv))
    (path : Trail (Storing.Steps env secret) meets start t) : Streams env secret start.wallet good t := by
  refine trail_invariant _ _ (Streams env secret start.wallet good) ?_ ?_ path
  · refine ⟨current, rfl, rfl, fun key here => ?_, fun here => ?_, fun here => ?_⟩
    · cases secret <;> cases fresh.symm.trans here
    · cases secret <;> cases fresh.symm.trans here
    · cases secret <;> cases here with
      | inl here => cases fresh.symm.trans here
      | inr here => cases fresh.symm.trans here
  · intro s action t streams met taken
    cases action with
    | thread =>
        refine streams_thread proper streams (fun staged => ?_) t taken
        rw [← streams_iv streams]
        exact reads s streams met staged
    | attemptPassword random password => exact streams_attempt streams random password t taken
    | rekey password =>
        cases taken
        exact streams_rekey proper streams password

end Steps

section Retrieval

variable {env : WalletEnv} {secret : Secret} {s : Storing}

theorem retrieves_iff (valid : s.wallet.validPassword env = true) (stream : Key) (long : Storing.Long secret stream)
    (entry : s.wallet.entryGetRaw (secret.place env) = ⟨secret.value ^^^ stream, 0⟩) :
    s.Retrieves env secret ↔ stream = s.wallet.check := by
  cases secret with
  | adhoc prv =>
      have typed : keyType ⟨prv ^^^ stream, 0⟩ = .adhoc := if_pos long
      have found : s.wallet.reveal env (env.publicKey prv) =
          (some (prv ^^^ stream ^^^ s.wallet.check)).filter fun prv' => env.publicKey prv = env.publicKey prv' := by
        rw [WalletStore.reveal, show s.wallet.entryGetRaw (env.publicKey prv) = ⟨prv ^^^ stream, 0⟩ from entry, typed]
      rw [Storing.Retrieves, WalletStore.fetch_valid _ valid, Except.ok.injEq, found, Option.filter_eq_some_iff,
        Option.some.injEq, xor_cancel_iff]
      exact and_iff_left (decide_eq_true rfl)
  | seed prv =>
      rw [Storing.Retrieves, WalletStore.seed_valid _ valid, show s.wallet.entryGetRaw seedSpecial = ⟨prv ^^^ stream, 0⟩ from entry]
      exact xor_cancel_iff prv stream s.wallet.check

end Retrieval

theorem stored_while_unlocked (env : WalletEnv) (proper : ∀ prv, specialCount ≤ env.publicKey prv) (secret : Secret) (start t : Storing)
    (fresh : start.stage = secret.first) (current : start.wallet.version = 3) (written : t.Written)
    (valid : t.wallet.validPassword env = true) :
    (Trail (Storing.Steps env secret) (Storing.ReadsUnlocked env secret) start t → t.Retrieves env secret) ∧
    (Trail (Storing.Steps env secret) (Storing.ReadsLocked env secret) start t → ¬ t.Retrieves env secret) := by
  constructor
  · intro path
    have streams :=
      @trail_streams env secret (fun stream => stream = start.wallet.check ∧ Storing.Long secret stream) proper _ start t fresh current
      (fun s streams met staged => by
        obtain ⟨valid, long⟩ := met rfl staged
        rw [(WalletStore.valid_iff env _).mp valid]
        exact ⟨streams.check, long⟩) path
    obtain ⟨stream, ⟨same, long⟩, entry⟩ := streams.entry written
    exact (retrieves_iff valid stream long entry).mpr (same.trans streams.check.symm)
  · intro path
    have streams :=
      @trail_streams env secret (fun stream => stream ≠ start.wallet.check ∧ Storing.Long secret stream) proper _ start t fresh current
      (fun s streams met staged => by
        obtain ⟨locked, long⟩ := met rfl staged
        refine ⟨fun same => ?_, long⟩
        rw [(WalletStore.valid_iff env _).mpr (same.trans streams.check.symm)] at locked
        cases locked) path
    obtain ⟨stream, ⟨other, long⟩, entry⟩ := streams.entry written
    exact fun retrieved => other (((retrieves_iff valid stream long entry).mp retrieved).trans streams.check)

theorem stored_while_unlocked_sample : ∃ s t, WalletStore.create sampleWalletEnv 0 1 9 5 [] [] = .ok s ∧
    Trail (Storing.Steps sampleWalletEnv (.adhoc 77)) (Storing.ReadsUnlocked sampleWalletEnv (.adhoc 77)) ⟨s, .checking⟩ t ∧
    t.stage = .stored ∧
    t.wallet.fetch sampleWalletEnv (sampleWalletEnv.publicKey 77) = .ok (some 77) := by
  obtain ⟨s, created, valid, keeps⟩ := @create_keeps sampleWalletEnv 0 1 9 [] [] 5
  have long : 2 ^ 64 ≤ ((77 : Key) ^^^ s.check).toNat := by
    have computed : (match WalletStore.create sampleWalletEnv 0 1 9 5 [] [] with
        | .ok s => decide (2 ^ 64 ≤ ((77 : Key) ^^^ s.check).toNat)
        | .error _ => false) = true := by decide +kernel
    rw [created] at computed
    exact of_decide_eq_true computed
  let key := s.walletKey sampleWalletEnv
  let entry : WalletValue := ⟨sampleWalletEnv.encrypt 77 key s.iv, 0⟩
  let last : Storing := ⟨s.entryPutRaw (sampleWalletEnv.publicKey 77) entry, .stored⟩
  have path : Trail (Storing.Steps sampleWalletEnv (.adhoc 77)) (Storing.ReadsUnlocked sampleWalletEnv (.adhoc 77))
    ⟨s, .checking⟩ last := by
    refine .step (⟨s, .writing key⟩ : Storing) StoringAction.thread last ?_ (fun _ staged => by cases staged) rfl
    refine .step (⟨s, .reading⟩ : Storing) StoringAction.thread _ ?_ (fun _ _ => ⟨valid, long⟩) rfl
    refine .step (⟨s, .asserting⟩ : Storing) StoringAction.thread _ ?_ (fun _ staged => by cases staged) ?_
    · refine .step (⟨s, .checking⟩ : Storing) StoringAction.thread _ .start (fun _ staged => by cases staged) ?_
      simp only [Storing.Steps, Storing.step, Storing.thread, if_pos valid]
    · simp only [Storing.Steps, Storing.step, Storing.thread, ensure_true _ valid, bind_ok]
  have frame := frame_put s (sampleWalletEnv.publicKey 77) entry (account_other _ (sample_keys_proper 77))
  have unlocked : last.wallet.validPassword sampleWalletEnv = true := (valid_frame frame rfl).trans valid
  exact ⟨s, last, created, path, rfl,
    (stored_while_unlocked sampleWalletEnv sample_keys_proper (.adhoc 77) ⟨s, .checking⟩ last rfl keeps.current
    (Or.inr rfl) unlocked).1 path⟩

-- The sample wallet has the password "word". Someone enters a wrong password after the checks of the storing thread,
-- and the right one when it is done.
def storingRun (secret : Secret) (before after : List StoringAction) : Except Fault Storing := do
  let s ← WalletStore.create sampleWalletEnv 0 1 9 5 [] []
  let s := (s.rekey sampleWalletEnv "word").1
  ensure (s.validPassword sampleWalletEnv = true)
  Storing.run sampleWalletEnv secret ⟨s, secret.first⟩
    (before ++ [.attemptPassword 0 "wrong"] ++ after ++ [.attemptPassword 0 "word"])

def spoiled (secret : Secret) (t : Storing) : Bool :=
  decide (t.stage = .stored) && t.wallet.validPassword sampleWalletEnv && match secret with
    | .adhoc prv => decide (t.wallet.fetch sampleWalletEnv (sampleWalletEnv.publicKey prv) = .ok none)
    | .seed prv => decide (t.wallet.seed sampleWalletEnv ≠ prv)

theorem wrong_password_spoils_secret :
    ((storingRun (.adhoc 77) [.thread, .thread] [.thread, .thread]).map (spoiled (.adhoc 77)) = .ok true) ∧
    (storingRun (.seed 13) [] [.thread, .thread, .thread]).map (spoiled (.seed 13)) = .ok true := by
  constructor <;> decide +kernel

end Rai
