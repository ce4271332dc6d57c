import Raiblocks.WalletKeys
import Mathlib.Tactic.IntervalCases

set_option autoImplicit false

namespace Rai

open Kit

def WalletStore.storedSeed (s : WalletStore) : Key := (s.entryGetRaw seedSpecial).key ^^^ s.check

-- A wallet from its creation on, unlocked or not, with the accounts that `deterministic_insert` made and nothing has
-- erased, replaced or cleared since. `move` and `import` are made of `insert_adhoc` and `erase`.
inductive WalletHistory (env : WalletEnv) : WalletStore → Set Key → Prop where
  | create (representative salt walletKey seed : Key) (parts parts' : List Key) (s : WalletStore)
      (created : WalletStore.create env representative salt walletKey seed parts parts' = .ok s) : WalletHistory env s ∅
  | insertAdhoc (s : WalletStore) (derived : Set Key) (prv : Key) (out : WalletStore × Account) (before : WalletHistory env s derived)
      (returned : s.insertAdhoc env prv = .ok out) : WalletHistory env out.1 (derived \ {out.2})
  | deterministicInsert (fuel : Nat) (s : WalletStore) (derived : Set Key) (out : WalletStore × Account)
    (before : WalletHistory env s derived)
      (returned : s.deterministicInsert env fuel = .ok out) : WalletHistory env out.1 (insert out.2 derived)
  | seedSet (s : WalletStore) (derived : Set Key) (prv : Key) (s' : WalletStore) (before : WalletHistory env s derived)
      (returned : s.seedSet env prv = .ok s') : WalletHistory env s' ∅
  | deterministicClear (s : WalletStore) (derived : Set Key) (s' : WalletStore) (before : WalletHistory env s derived)
      (returned : s.deterministicClear = .ok s') : WalletHistory env s' ∅
  | deterministicIndexSet (s : WalletStore) (derived : Set Key) (index : BitVec 32) (before : WalletHistory env s derived) :
      WalletHistory env (s.deterministicIndexSet index) derived
  | representativeSet (s : WalletStore) (derived : Set Key) (representative : Account) (before : WalletHistory env s derived) :
      WalletHistory env (s.representativeSet representative) derived
  | workPut (s : WalletStore) (derived : Set Key) (pub : Key) (work : BitVec 64) (s' : WalletStore)
    (before : WalletHistory env s derived)
      (returned : s.workPut pub work = .ok s') : WalletHistory env s' derived
  | erase (s : WalletStore) (derived : Set Key) (pub : Key) (s' : WalletStore) (before : WalletHistory env s derived)
      (account : specialCount ≤ pub) (returned : s.erase pub = .ok s') : WalletHistory env s' (derived \ {pub})
  | rekey (s : WalletStore) (derived : Set Key) (password : String) (before : WalletHistory env s derived) :
      WalletHistory env (s.rekey env password).1 derived
  | attemptPassword (random : Key) (s : WalletStore) (derived : Set Key) (password : String) (out : WalletStore × Bool)
      (before : WalletHistory env s derived) (returned : s.attemptPassword env random password = .ok out) :
      WalletHistory env out.1 derived

section Histories

theorem stored_seed_put (s : WalletStore) (key : Key) (value : WalletValue) (notSeed : key ≠ seedSpecial)
    (notCheck : key ≠ checkSpecial) : (s.entryPutRaw key value).storedSeed = s.storedSeed := by
  rw [WalletStore.storedSeed, WalletStore.check, WalletStore.entry_get_put, WalletStore.entry_get_put, if_neg notSeed.symm,
    if_neg notCheck.symm]
  rfl

structure Derives (env : WalletEnv) (s : WalletStore) (derived : Set Key) : Prop where
  current : s.version = 3
  marked : ∀ pub ∈ derived, ∃ index work, s.entries.get pub = some ⟨marker index, work⟩ ∧
    env.publicKey (env.deterministicKey s.storedSeed index) = pub

variable {env : WalletEnv} {s t : WalletStore} {derived : Set Key}

def guarded : List Key := [versionSpecial, checkSpecial, seedSpecial]

theorem derives_kept (derives : Derives env s derived) (kept : Set Key) (fewer : kept ⊆ derived)
    (specials : ∀ special ∈ guarded, (t.entryGetRaw special).key = (s.entryGetRaw special).key)
    (accounts : ∀ pub ∈ kept, t.entries.get pub = s.entries.get pub) : Derives env t kept := by
  have seed : t.storedSeed = s.storedSeed := by
    rw [WalletStore.storedSeed, WalletStore.storedSeed, WalletStore.check, WalletStore.check, specials seedSpecial (by simp [guarded]),
      specials checkSpecial (by simp [guarded])]
  refine ⟨?_, fun pub member => ?_⟩
  · rw [WalletStore.version, specials versionSpecial (by simp [guarded])]
    exact derives.current
  · rw [accounts pub member, seed]
    exact derives.marked pub (fewer member)

theorem derives_put (derives : Derives env s derived) (key : Key) (value : WalletValue) (other : key ∉ guarded) :
    Derives env (s.entryPutRaw key value) (derived \ {key}) := by
  refine derives_kept derives _ Set.sdiff_subset (fun special member => ?_) fun pub member => ?_
  · have different : special ≠ key := fun same => other (same ▸ member)
    rw [WalletStore.entry_get_put, if_neg different]
  · have different : pub ≠ key := member.2
    rw [WalletStore.get_put, if_neg different]

theorem guarded_special (special : Key) (member : special ∈ guarded) : special < specialCount := by
  simp only [guarded, List.mem_cons, List.not_mem_nil, or_false] at member
  rcases member with rfl | rfl | rfl
  all_goals decide

theorem account_unguarded (pub : Key) (account : specialCount ≤ pub) : pub ∉ guarded := fun member =>
  absurd (guarded_special pub member) (not_lt.mpr account)

theorem derived_account (proper : ∀ prv, specialCount ≤ env.publicKey prv) (derives : Derives env s derived) (pub : Key)
    (member : pub ∈ derived) :
    specialCount ≤ pub := by
  obtain ⟨index, work, _, owner⟩ := derives.marked pub member
  exact owner ▸ proper _

theorem derives_special (proper : ∀ prv, specialCount ≤ env.publicKey prv) (derives : Derives env s derived) (key : Key)
    (value : WalletValue) (special : key < specialCount) (other : key ∉ guarded) : Derives env (s.entryPutRaw key value) derived := by
  have same : derived \ {key} = derived := Set.sdiff_singleton_eq_self fun member =>
    absurd (derived_account proper derives key member) (not_le.mpr special)
  rw [← same]
  exact derives_put derives key value other

theorem derives_insert (proper : ∀ prv, specialCount ≤ env.publicKey prv) (derives : Derives env s derived) (fuel : Nat)
    (out : WalletStore × Account) (returned : s.deterministicInsert env fuel = .ok out) : Derives env out.1 (insert out.2 derived) := by
  unfold WalletStore.deterministicInsert at returned
  obtain ⟨⟨index, pub⟩, search, stored⟩ := bind_returned returned
  obtain ⟨valid, owner, absent⟩ := unused_key_returned fuel _ index pub search
  obtain rfl := Except.ok.inj stored
  have account : specialCount ≤ pub := owner ▸ proper _
  have fresh : pub ∉ derived := by
    intro member
    obtain ⟨index, work, held, _⟩ := derives.marked pub member
    rw [absent] at held
    cases held
  have written := derives_put derives pub ⟨marker index, 0⟩ (account_unguarded pub account)
  rw [Set.sdiff_singleton_eq_self fresh] at written
  have seed : (s.entryPutRaw pub ⟨marker index, 0⟩).storedSeed = s.seed env :=
    (stored_seed_put s pub _ (account_ne _ account (by decide)) (account_ne _ account (by decide))).trans
      (WalletStore.seed_valid s valid).symm
  have added : Derives env (s.entryPutRaw pub ⟨marker index, 0⟩) (insert pub derived) := by
    refine ⟨written.current, fun query member => ?_⟩
    obtain rfl | member := Set.mem_insert_iff.mp member
    · exact ⟨index, 0, by rw [WalletStore.get_put, if_pos rfl], by rw [seed, owner]⟩
    · exact written.marked query member
  exact derives_special proper added deterministicIndexSpecial _ (by decide) (by decide)

theorem derives_cleared (current : s.version = 3) (returned : s.deterministicClear = .ok t) : Derives env t ∅ := by
  obtain ⟨entries, cleared, _, specials⟩ := WalletStore.deterministic_clear_ok s
  obtain rfl : { s with entries := entries } = t := Except.ok.inj (cleared.symm.trans returned)
  refine ⟨?_, fun _ member => absurd member (Set.notMem_empty _)⟩
  rw [WalletStore.version, WalletStore.entryGetRaw, specials versionSpecial (by decide) (by decide)]
  exact current

theorem derives_work (derives : Derives env s derived) (pub : Key) (work : BitVec 64) (returned : s.workPut pub work = .ok t) :
    Derives env t derived := by
  have present : (s.entryGetRaw pub).key ≠ 0 := by
    by_contra zero
    rw [WalletStore.workPut, ensure, if_neg (not_not_intro zero)] at returned
    cases returned
  rw [WalletStore.workPut, ensure_true _ present, bind_ok] at returned
  obtain rfl := Except.ok.inj returned
  have keys : ∀ query, ((s.entryPutRaw pub { s.entryGetRaw pub with work := work }).entryGetRaw query).key =
    (s.entryGetRaw query).key := by
    intro query
    rw [WalletStore.entry_get_put]
    split
    · next same => rw [same]
    · rfl
  have seed : (s.entryPutRaw pub { s.entryGetRaw pub with work := work }).storedSeed = s.storedSeed := by
    rw [WalletStore.storedSeed, WalletStore.storedSeed, WalletStore.check, WalletStore.check, keys, keys]
  refine ⟨?_, fun query member => ?_⟩
  · rw [WalletStore.version, keys]
    exact derives.current
  · obtain ⟨index, before, held, owner⟩ := derives.marked query member
    rw [seed, WalletStore.get_put]
    split
    · next same =>
        have entry : s.entryGetRaw pub = ⟨marker index, before⟩ := by rw [WalletStore.entryGetRaw, ← same, held]; rfl
        exact ⟨index, work, by rw [entry], owner⟩
    · exact ⟨index, before, held, owner⟩

theorem derives_erased (derives : Derives env s derived) (pub : Key) (account : specialCount ≤ pub) (returned : s.erase pub = .ok t) :
    Derives env t (derived \ {pub}) := by
  obtain ⟨_, rfl⟩ := WalletStore.erase_returned s t pub returned
  refine derives_kept derives _ Set.sdiff_subset (fun special member => ?_) fun query member => Table.get_del_ne _ _ _ member.2
  have different : special ≠ pub := fun same => account_unguarded pub account (same ▸ member)
  rw [WalletStore.entryGetRaw, Table.get_del_ne _ _ _ different]
  rfl

theorem derives_rekey (proper : ∀ prv, specialCount ≤ env.publicKey prv) (derives : Derives env s derived) (password : String) :
    Derives env (s.rekey env password).1 derived := by
  cases valid : s.validPassword env with
  | false => rwa [rekey_locked valid]
  | true =>
      rw [rekey_valid valid]
      refine derives_kept derives derived subset_rfl (fun special member => ?_) fun pub member => ?_
      · rw [rekeyed_entry password special fun same => absurd (same ▸ member) (by decide)]
      · exact rekeyed_get password pub (account_ne _ (derived_account proper derives pub member) (by decide))

theorem history_derives (env : WalletEnv) (proper : ∀ prv, specialCount ≤ env.publicKey prv) (s : WalletStore) (derived : Set Key)
    (history : WalletHistory env s derived) : Derives env s derived := by
  induction history with
  | create representative salt walletKey seed parts parts' s created =>
      obtain ⟨t, made, _, keeps⟩ := @create_keeps env representative salt walletKey parts parts' seed
      obtain rfl : t = s := Except.ok.inj (made.symm.trans created)
      exact ⟨keeps.current, fun _ member => absurd member (Set.notMem_empty _)⟩
  | insertAdhoc s derived prv out _ returned ih =>
      rw [WalletStore.insert_adhoc_valid s (insert_adhoc_unlocked prv out returned)] at returned
      obtain rfl := Except.ok.inj returned
      exact derives_put ih _ _ (account_unguarded _ (proper prv))
  | deterministicInsert fuel s derived out _ returned ih => exact derives_insert proper ih fuel out returned
  | seedSet s derived prv s' _ returned ih =>
      refine derives_cleared (s := s.entryPutRaw seedSpecial ⟨env.encrypt prv (s.walletKey env) s.iv, 0⟩) ?_ returned
      rw [WalletStore.version, WalletStore.entry_get_put, if_neg (by decide)]
      exact ih.current
  | deterministicClear s derived s' _ returned ih => exact derives_cleared ih.current returned
  | deterministicIndexSet s derived index _ ih => exact derives_special proper ih _ _ (by decide) (by decide)
  | representativeSet s derived representative _ ih => exact derives_special proper ih _ _ (by decide) (by decide)
  | workPut s derived pub work s' _ returned ih => exact derives_work ih pub work returned
  | erase s derived pub s' _ account returned ih => exact derives_erased ih pub account returned
  | rekey s derived password _ ih => exact derives_rekey proper ih password
  | attemptPassword random s derived password out _ returned ih =>
      rw [attempt_current ih.current] at returned
      obtain rfl := Except.ok.inj returned
      exact ⟨ih.current, ih.marked⟩

end Histories

section Recovery

variable (env : WalletEnv)

def seedAccount (seed : Key) (i : Nat) : Account := env.publicKey (env.deterministicKey seed (BitVec.ofNat 32 i))

def WalletStore.adhocAccount (s : WalletStore) (pub : Key) : Bool := (s.entries.get pub).any fun value => keyType value ≠ .deterministic

def freshAccounts (seed : Key) (w : WalletStore) (start count : Nat) : List Account :=
  ((List.range' start count).map (seedAccount env seed)).filter fun pub => !w.adhocAccount pub

def deterministicInserts : Nat → WalletStore → Except Fault (WalletStore × List Account)
  | 0, s => .ok (s, [])
  | n + 1, s => do
      let (s, pub) ← s.deterministicInsert env (2 ^ 32)
      let (s, accounts) ← deterministicInserts n s
      .ok (s, pub :: accounts)

variable {env}

theorem unused_key_turn (s : WalletStore) (valid : s.validPassword env = true) (fuel start : Nat) :
    s.unusedKey env (fuel + 1) (BitVec.ofNat 32 start) =
      if s.exists (seedAccount env s.storedSeed start) = true then s.unusedKey env fuel (BitVec.ofNat 32 (start + 1))
      else .ok (BitVec.ofNat 32 start, seedAccount env s.storedSeed start) := by
  have seed : s.seed env = s.storedSeed := WalletStore.seed_valid s valid
  have next : BitVec.ofNat 32 start + 1 = BitVec.ofNat 32 (start + 1) := (BitVec.ofNat_add start 1).symm
  rw [WalletStore.unusedKey, WalletStore.deterministicKey, ensure_true _ valid, bind_ok, bind_ok, seed, next]
  rfl

theorem unused_key_first (s : WalletStore) (valid : s.validPassword env = true) (start target fuel : Nat) (ahead : start ≤ target)
    (enough : target - start < fuel) (used : ∀ i, start ≤ i → i < target → s.exists (seedAccount env s.storedSeed i) = true)
    (unused : s.exists (seedAccount env s.storedSeed target) = false) :
    s.unusedKey env fuel (BitVec.ofNat 32 start) = .ok (BitVec.ofNat 32 target, seedAccount env s.storedSeed target) := by
  induction fuel generalizing start with
  | zero => omega
  | succ fuel ih =>
      rw [unused_key_turn s valid]
      obtain rfl | before := ahead.eq_or_lt
      · rw [unused]
        rfl
      · rw [if_pos (used start (le_refl start) before)]
        exact ih (start + 1) before (by omega) fun i low high => used i (by omega) high

-- The wallet `w` after `seed_set` and some calls, which have inserted the accounts `done`.
structure Recovering (env : WalletEnv) (w : WalletStore) (seed : Key) (done : List Account) (index : Nat) (s : WalletStore) : Prop where
  frame : Frame w s
  password : s.password = w.password
  seeded : s.storedSeed = seed
  index : s.deterministicIndexGet = BitVec.ofNat 32 index
  kept : ∀ pub, specialCount ≤ pub → w.adhocAccount pub = true → s.entries.get pub = w.entries.get pub
  derived : ∀ pub ∈ done, ∃ i, s.entries.get pub = some ⟨marker i, 0⟩ ∧ env.publicKey (env.deterministicKey seed i) = pub
  vacant : ∀ pub, specialCount ≤ pub → w.adhocAccount pub = false → pub ∉ done → s.entries.get pub = none

variable {w s : WalletStore} {seed : Key} {done : List Account} {index : Nat}

theorem recovering_valid (recovering : Recovering env w seed done index s) (unlocked : w.validPassword env = true) :
    s.validPassword env = true :=
  (valid_frame recovering.frame (by rw [recovering.password])).trans unlocked

theorem clear_index (t : WalletStore) (returned : s.deterministicClear = .ok t) : t.deterministicIndexGet = 0 := by
  unfold WalletStore.deterministicClear at returned
  obtain ⟨cleared, _, indexed⟩ := bind_returned returned
  obtain rfl := Except.ok.inj indexed
  rw [WalletStore.deterministicIndexGet, WalletStore.deterministicIndexSet, WalletStore.entry_get_put, if_pos rfl]
  rfl

theorem recovering_start (unlocked : w.validPassword env = true) (seed : Key) :
    ∃ s, w.seedSet env seed = .ok s ∧ Recovering env w seed [] 0 s := by
  obtain ⟨s, returned, frame, password, planted, accounts⟩ := seed_set_frame unlocked seed
  refine ⟨s, returned, frame, password, ?_, ?_, fun pub account own => ?_, fun _ member => absurd member List.not_mem_nil,
    fun pub account own _ => ?_⟩
  · rw [WalletStore.storedSeed, planted, frame.check, xor_cancel]
  · exact clear_index s returned
  · rw [accounts pub account]
    cases held : w.entries.get pub with
    | none => rfl
    | some value =>
        have typed : keyType value ≠ .deterministic := by simpa [WalletStore.adhocAccount, held] using own
        simp [Option.filter, typed]
  · rw [accounts pub account]
    cases held : w.entries.get pub with
    | none => rfl
    | some value =>
        have typed : keyType value = .deterministic := by simpa [WalletStore.adhocAccount, held] using own
        simp [Option.filter, typed]

theorem adhoc_entry (pub : Key) (own : w.adhocAccount pub = true) :
    ∃ value, w.entries.get pub = some value ∧ keyType value ≠ .deterministic := by
  cases held : w.entries.get pub with
  | some value => exact ⟨value, rfl, by simpa [WalletStore.adhocAccount, held] using own⟩
  | none =>
      rw [WalletStore.adhocAccount, held] at own
      cases own

theorem recovering_insert (proper : ∀ prv, specialCount ≤ env.publicKey prv) (unlocked : w.validPassword env = true)
    (recovering : Recovering env w seed done index s) (next : Nat) (ahead : index ≤ next) (few : next < 2 ^ 32)
    (skipped : ∀ i, index ≤ i → i < next → w.adhocAccount (seedAccount env seed i) = true)
    (own : w.adhocAccount (seedAccount env seed next) = false) (fresh : seedAccount env seed next ∉ done) :
    ∃ t, s.deterministicInsert env (2 ^ 32) = .ok (t, seedAccount env seed next) ∧
      Recovering env w seed (done ++ [seedAccount env seed next]) (next + 1) t := by
  have account : specialCount ≤ seedAccount env seed next := proper _
  -- The accounts before the next one are those of the wallet itself.
  have search : s.unusedKey env (2 ^ 32) (BitVec.ofNat 32 index) = .ok (BitVec.ofNat 32 next, seedAccount env seed next) := by
    have seeded := recovering.seeded
    have found := unused_key_first s (recovering_valid recovering unlocked) index next (2 ^ 32) ahead (by omega)
    rw [seeded] at found
    refine found (fun i low high => ?_) ?_
    · rw [WalletStore.exists, recovering.kept (seedAccount env seed i) (proper _) (skipped i low high)]
      obtain ⟨value, held, _⟩ := adhoc_entry _ (skipped i low high)
      rw [held]
      rfl
    · rw [WalletStore.exists, recovering.vacant _ account own fresh]
      rfl
  let written := s.entryPutRaw (seedAccount env seed next) ⟨marker (BitVec.ofNat 32 next), 0⟩
  have frame := frame_put s (seedAccount env seed next) ⟨marker (BitVec.ofNat 32 next), 0⟩ (account_other _ account)
  have counted := frame_put written deterministicIndexSpecial ⟨(BitVec.ofNat 32 next + 1).setWidth 256, 0⟩ (by decide)
  have entries : ∀ pub, specialCount ≤ pub → (written.deterministicIndexSet (BitVec.ofNat 32 next + 1)).entries.get pub =
      if pub = seedAccount env seed next then some ⟨marker (BitVec.ofNat 32 next), 0⟩ else s.entries.get pub := by
    intro pub high
    rw [WalletStore.deterministicIndexSet, WalletStore.get_put, if_neg (account_ne _ high (by decide)), WalletStore.get_put]
  refine ⟨written.deterministicIndexSet (BitVec.ofNat 32 next + 1), ?_, ?_, recovering.password, ?_, ?_, fun pub high adhoc => ?_,
    fun pub member => ?_, fun pub high missing absent => ?_⟩
  · rw [WalletStore.deterministicInsert, recovering.index, search, bind_ok]
  · exact frame_trans recovering.frame (frame_trans frame counted)
  · refine (stored_seed_put _ _ _ (by decide) (by decide)).trans ?_
    exact (stored_seed_put _ _ _ (account_ne _ account (by decide)) (account_ne _ account (by decide))).trans recovering.seeded
  · rw [WalletStore.deterministicIndexGet, WalletStore.deterministicIndexSet, WalletStore.entry_get_put, if_pos rfl, BitVec.ofNat_add]
    exact BitVec.setWidth_setWidth_of_le _ (by decide)
  · have other : pub ≠ seedAccount env seed next := by
      rintro rfl
      rw [own] at adhoc
      cases adhoc
    rw [entries pub high, if_neg other, recovering.kept pub high adhoc]
  · rw [List.mem_append, List.mem_singleton] at member
    obtain before | rfl := member
    · obtain ⟨i, held, owner⟩ := recovering.derived pub before
      have high : specialCount ≤ pub := owner ▸ proper _
      have other : pub ≠ seedAccount env seed next := fun same => fresh (same ▸ before)
      exact ⟨i, by rw [entries pub high, if_neg other, held], owner⟩
    · exact ⟨BitVec.ofNat 32 next, by rw [entries _ account, if_pos rfl], rfl⟩
  · rw [List.mem_append, not_or, List.mem_singleton] at absent
    rw [entries pub high, if_neg absent.2, recovering.vacant pub high missing absent.1]

-- The calls go through the indices from `start` on; the induction is on how many of them are left.
theorem recovering_run (proper : ∀ prv, specialCount ≤ env.publicKey prv) (unlocked : w.validPassword env = true) (count : Nat)
    (start index n : Nat) (done : List Account) (s : WalletStore) (recovering : Recovering env w seed done index s)
    (ahead : index ≤ start) (few : start + count ≤ 2 ^ 32) (skipped : ∀ i, index ≤ i → i < start →
    w.adhocAccount (seedAccount env seed i) = true)
    (passed : ∀ pub ∈ done, ∃ i < start, seedAccount env seed i = pub)
    (injective : ∀ i j, i < start + count → j < start + count → seedAccount env seed i = seedAccount env seed j → i = j)
    (enough : n ≤ (freshAccounts env seed w start count).length) :
    ∃ t index', deterministicInserts env n s = .ok (t, (freshAccounts env seed w start count).take n) ∧
      Recovering env w seed (done ++ (freshAccounts env seed w start count).take n) index' t := by
  induction count generalizing start index n done s with
  | zero =>
      obtain rfl : n = 0 := Nat.le_zero.mp enough
      exact ⟨s, index, rfl, by simpa using recovering⟩
  | succ count ih =>
      cases own : w.adhocAccount (seedAccount env seed start) with
      | true =>
          have same : freshAccounts env seed w start (count + 1) = freshAccounts env seed w (start + 1) count := by
            simp [freshAccounts, List.range'_succ, own]
          rw [same] at enough ⊢
          refine ih (start + 1) index n done s recovering (by omega) (by omega) (fun i low high => ?_) (fun pub member => ?_) ?_ enough
          · obtain rfl | before := (Nat.lt_succ_iff.mp high).eq_or_lt
            · exact own
            · exact skipped i low before
          · obtain ⟨i, low, owner⟩ := passed pub member
            exact ⟨i, by omega, owner⟩
          · rwa [show start + 1 + count = start + (count + 1) by omega]
      | false =>
          have first : freshAccounts env seed w start (count + 1) = seedAccount env seed start :: freshAccounts env seed
            w (start + 1) count := by
            simp [freshAccounts, List.range'_succ, own]
          rw [first] at enough ⊢
          cases n with
          | zero => exact ⟨s, index, rfl, by simpa using recovering⟩
          | succ n =>
              have fresh : seedAccount env seed start ∉ done := by
                intro member
                obtain ⟨i, low, owner⟩ := passed _ member
                exact absurd (injective i start (by omega) (by omega) owner) (by omega)
              obtain ⟨mid, inserted, next⟩ := recovering_insert proper unlocked recovering start ahead (by omega) skipped own fresh
              obtain ⟨t, index', returned, after⟩ := ih (start + 1) (start + 1) n _ mid next (le_refl _) (by omega)
                (fun i low high => absurd low (by omega)) (fun pub member => by
                  rw [List.mem_append, List.mem_singleton] at member
                  obtain before | rfl := member
                  · obtain ⟨i, low, owner⟩ := passed pub before
                    exact ⟨i, by omega, owner⟩
                  · exact ⟨start, by omega, rfl⟩)
                (by rwa [show start + 1 + count = start + (count + 1) by omega]) (Nat.le_of_succ_le_succ enough)
              refine ⟨t, index', ?_, by simpa using after⟩
              rw [deterministicInserts, inserted, bind_ok]
              dsimp only
              rw [returned, bind_ok]
              rfl

theorem recovered_exists (recovering : Recovering env w seed done index s) (pub : Key) (account : specialCount ≤ pub)
    (reached : w.adhocAccount pub = false → pub ∈ done) : s.exists pub = true := by
  rw [WalletStore.exists]
  cases own : w.adhocAccount pub with
  | true =>
      obtain ⟨value, held, _⟩ := adhoc_entry pub own
      rw [recovering.kept pub account own, held]
      rfl
  | false =>
      obtain ⟨i, held, _⟩ := recovering.derived pub (reached own)
      rw [held]
      rfl

theorem recovered_fetch (recovering : Recovering env w seed done index s) (unlocked : w.validPassword env = true) (pub : Key)
    (account : specialCount ≤ pub) (reached : w.adhocAccount pub = false → pub ∈ done)
    (readable : w.adhocAccount pub = true → ∃ prv, w.fetch env pub = .ok (some prv)) : ∃ prv, s.fetch env pub = .ok (some prv) := by
  rw [WalletStore.fetch_valid s (recovering_valid recovering unlocked)]
  cases own : w.adhocAccount pub with
  | true =>
      obtain ⟨prv, fetched⟩ := readable own
      obtain ⟨value, held, typed⟩ := adhoc_entry pub own
      rw [WalletStore.fetch_valid w unlocked, WalletStore.reveal_entry w pub value held] at fetched
      -- The new seed is nothing to an account that was not derived.
      refine ⟨prv, ?_⟩
      rw [WalletStore.reveal_entry s pub value ((recovering.kept pub account own).trans held),
        WalletStore.reveal_value_check w s pub value typed recovering.frame.check, fetched]
  | false =>
      obtain ⟨i, held, owner⟩ := recovering.derived pub (reached own)
      refine ⟨env.deterministicKey seed i, ?_⟩
      rw [WalletStore.reveal_entry s pub _ held, WalletStore.revealValue, marker_type]
      dsimp only
      rw [marker_index, ← WalletStore.storedSeed, recovering.seeded, WalletStore.filter_owner, if_pos owner.symm]

theorem run_readable (proper : ∀ prv, specialCount ≤ env.publicKey prv) (vault : Vault) (run : WalletRun env w vault)
    (unlocked : w.validPassword env = true) (pub : Key) (account : specialCount ≤ pub) (own : w.adhocAccount pub = true) :
    ∃ prv, w.fetch env pub = .ok (some prv) := by
  have keeps := run_keeps proper run
  obtain ⟨value, held, _⟩ := adhoc_entry pub own
  rw [keeps.held pub account] at held
  obtain ⟨holding, kept, _⟩ := Option.map_eq_some_iff.mp held
  exact ⟨_, by rw [WalletStore.fetch_valid w unlocked, reveal_held keeps pub holding kept]⟩

theorem fresh_first (seed : Key) (w : WalletStore) (used count : Nat) (fewer : used ≤ count) :
    freshAccounts env seed w 0 used <+: freshAccounts env seed w 0 count := by
  obtain ⟨rest, rfl⟩ := Nat.exists_eq_add_of_le fewer
  exact List.IsPrefix.filter _ (List.IsPrefix.map _ ⟨List.range' (0 + used) rest, List.range'_append_1⟩)

end Recovery

-- A seed brings back the accounts derived from it, in the order of their indices. Those that the wallet has already are
-- skipped and stay what they are.
theorem seed_recovers_accounts (env : WalletEnv) (proper : ∀ prv, specialCount ≤ env.publicKey prv) (origin : WalletStore)
    (derived : Set Key) (history : WalletHistory env origin derived) (w : WalletStore) (unlocked : w.validPassword env = true)
    (count : Nat) (few : count ≤ 2 ^ 32) (injective : ∀ i j, i < count → j < count →
    seedAccount env origin.storedSeed i = seedAccount env origin.storedSeed j → i = j) :
    (origin.validPassword env = true → origin.seed env = origin.storedSeed) ∧
    (∀ pub ∈ derived, origin.exists pub = true ∧ ∃ i, i < 2 ^ 32 ∧ seedAccount env origin.storedSeed i = pub) ∧
    ∃ seeded, w.seedSet env origin.storedSeed = .ok seeded ∧ ∀ n, n ≤ (freshAccounts env origin.storedSeed w 0 count).length →
      ∃ t, deterministicInserts env n seeded = .ok (t, (freshAccounts env origin.storedSeed w 0 count).take n) ∧
        ∀ used, used ≤ count → (∀ pub ∈ derived, ∃ i, i < used ∧ seedAccount env origin.storedSeed i = pub) →
          (freshAccounts env origin.storedSeed w 0 used).length ≤ n → ∀ pub ∈ derived, t.exists pub = true ∧
            ((w.adhocAccount pub = true → ∃ prv, w.fetch env pub = .ok (some prv)) → ∃ prv, t.fetch env pub = .ok (some prv)) := by
  have derives := history_derives env proper origin derived history
  refine ⟨WalletStore.seed_valid origin, fun pub member => ?_, ?_⟩
  · obtain ⟨index, work, held, owner⟩ := derives.marked pub member
    refine ⟨by rw [WalletStore.exists, held]; rfl, index.toNat, index.isLt, ?_⟩
    rw [seedAccount, BitVec.ofNat_toNat, BitVec.setWidth_eq, owner]
  · obtain ⟨seeded, planted, start⟩ := recovering_start unlocked origin.storedSeed
    refine ⟨seeded, planted, fun n enough => ?_⟩
    obtain ⟨t, index, returned, recovering⟩ := recovering_run proper unlocked count 0 0 n [] seeded start (le_refl 0) (by omega)
      (fun i _ high => absurd high (Nat.not_lt_zero i)) (fun _ member => absurd member List.not_mem_nil)
      (by simpa using injective) enough
    rw [List.nil_append] at recovering
    refine ⟨t, returned, fun used fewer covered passed pub member => ?_⟩
    have account := derived_account proper derives pub member
    have reached : w.adhocAccount pub = false → pub ∈ (freshAccounts env origin.storedSeed w 0 count).take n := by
      intro own
      obtain ⟨i, low, owner⟩ := covered pub member
      have listed : pub ∈ freshAccounts env origin.storedSeed w 0 used := by
        simp only [freshAccounts, List.mem_filter, List.mem_map, List.mem_range'_1]
        exact ⟨⟨i, by omega, owner⟩, by simp [own]⟩
      exact (List.prefix_take_iff.mpr ⟨fresh_first _ w used count fewer, passed⟩).subset listed
    exact ⟨recovered_exists recovering pub account reached, recovered_fetch recovering unlocked pub account reached⟩

def sampleDerived : Except Fault (WalletStore × List Account) := do
  let s ← WalletStore.create sampleWalletEnv 0 1 9 5 [] []
  let (s, first) ← s.deterministicInsert sampleWalletEnv 2
  let (s, second) ← s.deterministicInsert sampleWalletEnv 2
  .ok (s, [first, second])

def sampleTarget : Except Fault WalletStore := do
  let s ← WalletStore.create sampleWalletEnv 0 2 8 7 [] []
  let (s, _) ← s.insertAdhoc sampleWalletEnv (sampleWalletEnv.deterministicKey 5 0)
  .ok s

theorem seed_recovers_accounts_sample : ∃ origin w seeded t,
    WalletHistory sampleWalletEnv origin {seedAccount sampleWalletEnv 5 1, seedAccount sampleWalletEnv 5 0} ∧ sampleTarget = .ok w ∧
    w.seedSet sampleWalletEnv 5 = .ok seeded ∧ deterministicInserts sampleWalletEnv 1 seeded =
    .ok (t, [seedAccount sampleWalletEnv 5 1]) ∧
    ∀ i, i < 2 → ∃ prv, t.fetch sampleWalletEnv (seedAccount sampleWalletEnv 5 i) = .ok (some prv) := by
  have computed : sampleDerived.map (fun out => (out.1.storedSeed, out.2)) =
      .ok (5, [seedAccount sampleWalletEnv 5 0, seedAccount sampleWalletEnv 5 1]) := by decide +kernel
  obtain ⟨⟨origin, accounts⟩, made, facts⟩ := map_returned computed
  obtain ⟨seed, listed⟩ := Prod.mk.inj facts
  obtain ⟨s, created, rest⟩ := bind_returned made
  obtain ⟨first, inserted, rest⟩ := bind_returned rest
  obtain ⟨second, again, rest⟩ := bind_returned rest
  obtain ⟨rfl, rfl⟩ := Prod.mk.inj (Except.ok.inj rest)
  obtain ⟨firstly, others⟩ := List.cons.inj listed
  obtain ⟨secondly, _⟩ := List.cons.inj others
  have history :=
    WalletHistory.deterministicInsert 2 _ _ _ (.deterministicInsert 2 _ _ _ (.create 0 1 9 5 [] [] s created) inserted) again
  rw [firstly, secondly, insert_empty_eq] at history
  have target : sampleTarget.map (fun w => (w.validPassword sampleWalletEnv, freshAccounts sampleWalletEnv 5 w 0 2)) =
      .ok (true, [seedAccount sampleWalletEnv 5 1]) := by decide +kernel
  obtain ⟨w, reached, facts⟩ := map_returned target
  obtain ⟨unlocked, fresh⟩ := Prod.mk.inj facts
  -- The other wallet has a history, too.
  have long : (WalletStore.create sampleWalletEnv 0 2 8 7 [] []).map (fun s => decide (2 ^ 64 ≤
      (sampleWalletEnv.encrypt (sampleWalletEnv.deterministicKey 5 0) (s.walletKey sampleWalletEnv) s.iv).toNat)) =
      .ok true := by decide +kernel
  obtain ⟨u, prepared, rest⟩ := bind_returned reached
  obtain ⟨added, adhoc, rest⟩ := bind_returned rest
  obtain rfl : added.1 = w := Except.ok.inj rest
  rw [prepared] at long
  have run := WalletRun.insertAdhoc u _ _ added (.create 0 2 8 7 [] [] u prepared) (of_decide_eq_true (Except.ok.inj long)) adhoc
  have distinct : ∀ i, i < 2 → ∀ j, j < 2 → seedAccount sampleWalletEnv 5 i = seedAccount sampleWalletEnv 5 j →
    i = j := by decide +kernel
  obtain ⟨_, _, seeded, planted, recovers⟩ :=
    seed_recovers_accounts sampleWalletEnv sample_keys_proper _ _ history added.1 unlocked 2 (by decide)
    (by rw [seed]; exact fun i j low low' => distinct i low j low')
  rw [seed] at planted recovers
  rw [fresh] at recovers
  obtain ⟨t, returned, found⟩ := recovers 1 (le_refl 1)
  refine ⟨second.1, added.1, seeded, t, history, reached, planted, returned, fun i low => ?_⟩
  have covered : ∀ pub ∈ ({seedAccount sampleWalletEnv 5 1, seedAccount sampleWalletEnv 5 0} : Set Key), ∃ i, i < 2 ∧
    seedAccount sampleWalletEnv 5 i = pub := by
    rintro pub (rfl | rfl)
    · exact ⟨1, by decide, rfl⟩
    · exact ⟨0, by decide, rfl⟩
  have present := found 2 (le_refl 2) covered (by rw [fresh]; exact le_refl 1)
  have listed : seedAccount sampleWalletEnv 5 i ∈ ({seedAccount sampleWalletEnv 5 1, seedAccount sampleWalletEnv 5 0} : Set Key) := by
    interval_cases i <;> simp
  exact (present _ listed).2 (run_readable sample_keys_proper _ run unlocked _ (sample_keys_proper _))

end Rai
