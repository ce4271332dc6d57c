import Raiblocks.Wallet

set_option autoImplicit false

namespace Rai

open Kit

theorem xor_cancel (a b : Key) : a ^^^ b ^^^ b = a := by
  rw [BitVec.xor_assoc, BitVec.xor_self, BitVec.xor_zero]

theorem xor_cancel_iff (a b c : Key) : a ^^^ b ^^^ c = a ↔ b = c := by
  calc a ^^^ b ^^^ c = a
    _ ↔ a ^^^ (b ^^^ c) = a ^^^ 0#256 := by rw [BitVec.xor_assoc, BitVec.xor_zero]
    _ ↔ b ^^^ c = 0#256 := BitVec.xor_right_inj a
    _ ↔ b = c := BitVec.xor_eq_zero_iff

theorem zero_xor (a : Key) : 0 ^^^ a = a := BitVec.zero_xor

theorem xor_fold (values : List Key) (a : Key) : values.foldl (· ^^^ ·) a = a ^^^ values.foldl (· ^^^ ·) 0 := by
  induction values generalizing a with
  | nil => exact BitVec.xor_zero.symm
  | cons first rest ih => rw [List.foldl_cons, List.foldl_cons, ih, zero_xor, ih first, BitVec.xor_assoc]

theorem fan_value (fan : Fan) : fan.value = fan.values.head fan.spread ^^^ fan.values.tail.foldl (· ^^^ ·) 0 := by
  have whole : fan.value = (fan.values.head fan.spread :: fan.values.tail).foldl (· ^^^ ·) 0 := by rw [List.cons_head_tail]; rfl
  rw [whole, List.foldl_cons, zero_xor, xor_fold]

@[simp] theorem value_set_value (fan : Fan) (value : Key) : (fan.valueSet value).value = value := by
  refine (fan_value _).trans ?_
  change fan.values.head fan.spread ^^^ fan.value ^^^ value ^^^ fan.values.tail.foldl (· ^^^ ·) 0 = value
  -- Both parts of the old value occur twice.
  rw [fan_value fan, ← BitVec.xor_assoc, BitVec.xor_self, BitVec.zero_xor, BitVec.xor_comm _ value, xor_cancel]

theorem marker_value (index : BitVec 32) : (marker index).toNat = 2 ^ 32 + index.toNat := by
  have small := index.isLt
  have parts : 2 ^ 32 ||| index.toNat = 2 ^ 32 + index.toNat := by
    have sum := Nat.two_pow_add_eq_or_of_lt small 1
    rwa [Nat.mul_one, eq_comm] at sum
  have low : (index.setWidth 64).toNat = index.toNat := by
    rw [BitVec.toNat_setWidth]
    omega
  have high : (1#64 <<< 32).toNat = 2 ^ 32 := by decide
  rw [marker, BitVec.toNat_setWidth, BitVec.toNat_or, low, high, parts]
  omega

theorem marker_type (index : BitVec 32) (work : BitVec 64) : keyType ⟨marker index, work⟩ = .deterministic := by
  have small := index.isLt
  have value := marker_value index
  have high : (marker index >>> 32).setWidth 32 = 1#32 := by
    apply BitVec.eq_of_toNat_eq
    have literal : (1#32).toNat = 1 := rfl
    rw [BitVec.toNat_setWidth, BitVec.toNat_ushiftRight, value, Nat.shiftRight_eq_div_pow]
    omega
  rw [keyType, if_neg (by dsimp only; omega), if_pos high]

theorem marker_index (index : BitVec 32) : (marker index).setWidth 32 = index := by
  have small := index.isLt
  apply BitVec.eq_of_toNat_eq
  rw [BitVec.toNat_setWidth, marker_value]
  omega

theorem account_ne {pub : Key} (special : Key) (account : specialCount ≤ pub) (low : special < specialCount) : pub ≠ special := by
  rintro rfl
  exact absurd account (not_le.mpr low)

namespace WalletStore

@[simp] theorem entry_get_put (s : WalletStore) (pub query : Key) (entry : WalletValue) :
    (s.entryPutRaw pub entry).entryGetRaw query = if query = pub then entry else s.entryGetRaw query := by
  simp only [entryGetRaw, entryPutRaw, Table.get_put]
  split <;> rfl

theorem get_put (s : WalletStore) (pub query : Key) (entry : WalletValue) :
    (s.entryPutRaw pub entry).entries.get query = if query = pub then some entry else s.entries.get query := Table.get_put _ _ _ _

theorem erase_returned (s t : WalletStore) (pub : Key) (returned : s.erase pub = .ok t) :
    (s.entries.get pub).isSome = true ∧ t = { s with entries := s.entries.del pub } := by
  unfold erase ensure at returned
  split at returned
  · next present => exact ⟨present, (Except.ok.inj returned).symm⟩
  · cases returned

theorem mem_accounts (s : WalletStore) (row : Key × WalletValue) :
    row ∈ s.accounts ↔ s.entries.get row.1 = some row.2 ∧ specialCount ≤ row.1 := by
  rw [accounts, List.mem_filter, (Table.lists_rows s.entries).entries]
  simp

theorem accounts_once (s : WalletStore) : (s.accounts.map Prod.fst).Nodup :=
  (Table.lists_rows s.entries).once.sublist (List.filter_sublist.map _)

section Loops

variable (turn : WalletStore → Key × WalletValue → Except Fault WalletStore) (after : Key → WalletValue → Option WalletValue)
  (holds : WalletStore → Prop)

def OwnEntry : Prop := ∀ s row, holds s → specialCount ≤ row.1 → s.entries.get row.1 = some row.2 →
  ∃ entries, turn s row = .ok { s with entries := entries } ∧ holds { s with entries := entries } ∧
  entries.get row.1 = after row.1 row.2 ∧
    ∀ k, k ≠ row.1 → entries.get k = s.entries.get k

variable {turn after holds}

theorem each_row (own : OwnEntry turn after holds) (rows : List (Key × WalletValue)) (s : WalletStore) (start : holds s)
    (once : (rows.map Prod.fst).Nodup) (present : ∀ row ∈ rows, s.entries.get row.1 = some row.2 ∧ specialCount ≤ row.1) :
    ∃ entries, rows.foldlM turn s = .ok { s with entries := entries } ∧ holds { s with entries := entries } ∧
      (∀ row ∈ rows, entries.get row.1 = after row.1 row.2) ∧ ∀ k, k ∉ rows.map Prod.fst → entries.get k = s.entries.get k := by
  induction rows generalizing s with
  | nil => exact ⟨s.entries, rfl, start, by simp, fun _ _ => rfl⟩
  | cons row rows ih =>
      obtain ⟨other, once⟩ := List.nodup_cons.mp once
      obtain ⟨⟨held, account⟩, rest⟩ := List.forall_mem_cons.mp present
      obtain ⟨mid, turned, kept, written, others⟩ := own s row start account held
      -- The later rows have other keys, so the first turn leaves their entries alone.
      obtain ⟨entries, looped, ended, inside, outside⟩ := ih { s with entries := mid } kept once fun later member => by
        refine ⟨?_, (rest later member).2⟩
        rw [others later.1 fun same => other (same ▸ List.mem_map_of_mem member)]
        exact (rest later member).1
      refine ⟨entries, ?_, ended, List.forall_mem_cons.mpr ⟨(outside row.1 other).trans written, inside⟩, fun k unlisted => ?_⟩
      · rw [List.foldlM_cons, turned, bind_ok]
        exact looped
      · obtain ⟨different, absent⟩ := not_or.mp (List.mem_cons.not.mp unlisted)
        exact (outside k absent).trans (others k different)

theorem each_account (own : OwnEntry turn after holds) (s : WalletStore) (start : holds s) :
    ∃ entries, s.accounts.foldlM turn s = .ok { s with entries := entries } ∧ holds { s with entries := entries } ∧
      (∀ pub, specialCount ≤ pub → entries.get pub = (s.entries.get pub).bind (after pub)) ∧
      ∀ special, special < specialCount → entries.get special = s.entries.get special := by
  obtain ⟨entries, looped, ended, inside, outside⟩ := each_row own s.accounts s start s.accounts_once fun row => (s.mem_accounts row).mp
  have listed : ∀ k, k ∈ s.accounts.map Prod.fst → (∃ value, s.entries.get k = some value) ∧ specialCount ≤ k := by
    intro k member
    obtain ⟨row, within, rfl⟩ := List.mem_map.mp member
    obtain ⟨held, account⟩ := (s.mem_accounts row).mp within
    exact ⟨⟨row.2, held⟩, account⟩
  refine ⟨entries, looped, ended, fun pub account => ?_, fun special low => outside special fun member => ?_⟩
  · cases held : s.entries.get pub with
    | some value => exact inside (pub, value) ((s.mem_accounts (pub, value)).mpr ⟨held, account⟩)
    | none =>
        refine (outside pub fun member => ?_).trans held
        obtain ⟨value, found⟩ := (listed pub member).1
        rw [held] at found
        cases found
  · exact absurd (listed special member).2 (not_le.mpr low)

end Loops

theorem deterministic_clear_ok (s : WalletStore) : ∃ entries, s.deterministicClear = .ok { s with entries := entries } ∧
    (∀ pub, specialCount ≤ pub → entries.get pub = (s.entries.get pub).filter fun value => keyType value ≠ .deterministic) ∧
    ∀ special, special < specialCount → special ≠ deterministicIndexSpecial → entries.get special = s.entries.get special := by
  have own : OwnEntry (fun s row => if keyType row.2 = .deterministic then s.erase row.1 else .ok s)
      (fun _ value => (some value).filter fun value => keyType value ≠ .deterministic) (fun _ => True) := by
    intro s row _ _ held
    by_cases marked : keyType row.2 = .deterministic
    · refine ⟨s.entries.del row.1, ?_, trivial, ?_, fun k other => Table.get_del_ne _ _ _ other⟩
      · refine (if_pos marked).trans ?_
        rw [erase, ensure_true _ (by rw [held]; rfl), bind_ok]
      · rw [Table.get_del_self]
        simp [Option.filter, marked]
    · refine ⟨s.entries, if_neg marked, trivial, ?_, fun _ _ => rfl⟩
      rw [held]
      simp [Option.filter, marked]
  obtain ⟨entries, cleared, _, accounts, specials⟩ := each_account own s trivial
  refine ⟨entries.put deterministicIndexSpecial ⟨(0 : BitVec 32).setWidth 256, 0⟩, ?_, fun pub account => ?_,
    fun special low other => ?_⟩
  · rw [deterministicClear, cleared, bind_ok]
    rfl
  · rw [Table.get_put_ne _ _ _ _ (account_ne _ account (by decide)), accounts pub account]
    cases s.entries.get pub <;> rfl
  · rw [Table.get_put_ne _ _ _ _ other, specials special low]

section Unlocked

variable (env : WalletEnv)

-- The check is the keystream itself, so with the right password it is what every key is encrypted with.
theorem valid_iff (s : WalletStore) : s.validPassword env = true ↔ env.keystream (s.walletKey env) s.iv = s.check := by
  rw [validPassword, decide_eq_true_eq, WalletEnv.encrypt, zero_xor]
  exact eq_comm

variable {env}

theorem seed_valid (s : WalletStore) (valid : s.validPassword env = true) :
    s.seed env = (s.entryGetRaw seedSpecial).key ^^^ s.check := by
  rw [seed, WalletEnv.decrypt, (valid_iff env s).mp valid]

theorem encrypt_valid (s : WalletStore) (valid : s.validPassword env = true) (prv : Key) :
    env.encrypt prv (s.walletKey env) s.iv = prv ^^^ s.check := by
  rw [WalletEnv.encrypt, (valid_iff env s).mp valid]

theorem seed_set_valid (s : WalletStore) (valid : s.validPassword env = true) (prv : Key) :
    ∃ entries, s.seedSet env prv = .ok { s with entries := entries } ∧
      (∀ pub, specialCount ≤ pub → entries.get pub = (s.entries.get pub).filter fun value => keyType value ≠ .deterministic) ∧
      entries.get seedSpecial = some ⟨prv ^^^ s.check, 0⟩ ∧
      ∀ special, special < specialCount → special ≠ deterministicIndexSpecial → special ≠ seedSpecial →
        entries.get special = s.entries.get special := by
  obtain ⟨entries, cleared, accounts, specials⟩ := deterministic_clear_ok (s.entryPutRaw seedSpecial ⟨prv ^^^ s.check, 0⟩)
  refine ⟨entries, ?_, fun pub account => ?_, ?_, fun special low notIndex notSeed => ?_⟩
  · rw [seedSet, encrypt_valid s valid, cleared]
    rfl
  · rw [accounts pub account, get_put, if_neg (account_ne _ account (by decide))]
  · rw [specials seedSpecial (by decide) (by decide), get_put, if_pos rfl]
  · rw [specials special low notIndex, get_put, if_neg notSeed]

theorem insert_adhoc_valid (s : WalletStore) (valid : s.validPassword env = true) (prv : Key) :
    s.insertAdhoc env prv = .ok (s.entryPutRaw (env.publicKey prv) ⟨prv ^^^ s.check, 0⟩, env.publicKey prv) := by
  rw [insertAdhoc, ensure_true _ valid, bind_ok, encrypt_valid s valid]

variable (env)

def reveal (s : WalletStore) (pub : Key) : Option Key :=
  let value := s.entryGetRaw pub
  let prv := match keyType value with
    | .deterministic => some (env.deterministicKey ((s.entryGetRaw seedSpecial).key ^^^ s.check) (value.key.setWidth 32))
    | .adhoc => some (value.key ^^^ s.check)
    | .unknown => none
  prv.filter fun prv => pub = env.publicKey prv

def revealValue (s : WalletStore) (pub : Key) (value : WalletValue) : Option Key :=
  let prv := match keyType value with
    | .deterministic => some (env.deterministicKey ((s.entryGetRaw seedSpecial).key ^^^ s.check) (value.key.setWidth 32))
    | .adhoc => some (value.key ^^^ s.check)
    | .unknown => none
  prv.filter fun prv => pub = env.publicKey prv

variable {env}

theorem reveal_entry (s : WalletStore) (pub : Key) (value : WalletValue) (held : s.entries.get pub = some value) :
    s.reveal env pub = s.revealValue env pub value := by
  rw [reveal, entryGetRaw, held]
  rfl

theorem reveal_missing (s : WalletStore) (pub : Key) (absent : s.entries.get pub = none) : s.reveal env pub = none := by
  rw [reveal, entryGetRaw, absent]
  rfl

theorem reveal_value_owner (s : WalletStore) (pub prv : Key) (value : WalletValue) (revealed : s.revealValue env pub value = some prv) :
    env.publicKey prv = pub := by
  have owner := (Option.filter_eq_some_iff.mp revealed).2
  exact (of_decide_eq_true owner).symm

theorem reveal_value_check (s t : WalletStore) (pub : Key) (value : WalletValue) (own : keyType value ≠ .deterministic)
    (check : t.check = s.check) :
    t.revealValue env pub value = s.revealValue env pub value := by
  rw [revealValue, revealValue]
  cases kind : keyType value with
  | deterministic => exact absurd kind own
  | adhoc => rw [check]
  | unknown => rfl

theorem reveal_value_same (s t : WalletStore) (pub : Key) (value : WalletValue) (check : t.check = s.check)
    (seed : t.entryGetRaw seedSpecial = s.entryGetRaw seedSpecial) : t.revealValue env pub value = s.revealValue env pub value := by
  rw [revealValue, revealValue, check, seed]

theorem reveal_same (s t : WalletStore) (pub : Key) (entry : t.entryGetRaw pub = s.entryGetRaw pub) (check : t.check = s.check)
    (seed : t.entryGetRaw seedSpecial = s.entryGetRaw seedSpecial) : t.reveal env pub = s.reveal env pub := by
  rw [reveal, reveal, entry, check, seed]

theorem filter_owner (pub prv : Key) :
    (some prv).filter (fun prv => decide (pub = env.publicKey prv)) = if pub = env.publicKey prv then some prv else none := by
  by_cases same : pub = env.publicKey prv <;> simp only [Option.filter, same, decide_true, decide_false, if_true, if_false,
    Bool.false_eq_true]

theorem fetch_valid (s : WalletStore) (valid : s.validPassword env = true) (pub : Key) : s.fetch env pub = .ok (s.reveal env pub) := by
  rw [fetch, if_pos valid, reveal]
  dsimp only
  by_cases zero : (s.entryGetRaw pub).key = 0
  · have unknown : keyType (s.entryGetRaw pub) = .unknown := by rw [keyType, zero]; rfl
    rw [if_pos zero, unknown]
    rfl
  · rw [if_neg zero]
    cases keyType (s.entryGetRaw pub) with
    | unknown => rfl
    | adhoc =>
        rw [filter_owner]
        simp only [WalletEnv.decrypt, (valid_iff env s).mp valid]
    | deterministic =>
        rw [filter_owner]
        simp only [deterministicKey, ensure_true _ valid, bind_ok, seed_valid s valid]

theorem fetch_locked (s : WalletStore) (locked : s.validPassword env = false) (pub : Key) : s.fetch env pub = .ok none := by
  rw [fetch, locked]
  rfl

end Unlocked

end WalletStore

end Rai
