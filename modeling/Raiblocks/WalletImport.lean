import Raiblocks.WalletKeys

set_option autoImplicit false

namespace Rai

open Kit

-- A member of a JSON object: its name and the text of its value, which is empty if that is no string.
abbrev Member := String × String

section Model

variable (env : WalletEnv) (parse : String → Option Key)

-- `uint256_union::decode_hex`. What the stream operator reads from a text is a parameter.
def decodeHex (text : String) : Option Key := if text.utf8ByteSize ≠ 0 ∧ text.utf8ByteSize ≤ 64 then parse text else none

-- `ptree::get`: the first member of the name. A name that decodes has no dots, so it is not a longer path.
def memberText (members : List Member) (name : String) : String := ((members.find? fun member => member.1 = name).map Prod.snd).getD ""

def readMember (members : List Member) (member : Member) : Option (Key × WalletValue) :=
  (decodeHex parse member.1).bind fun key => (decodeHex parse (memberText members member.1)).map fun value => (key, ⟨value, 0⟩)

-- The flag is the error `init_a`, which each member sets anew.
def putMember (members : List Member) (state : WalletStore × Bool) (member : Member) : WalletStore × Bool :=
  match readMember parse members member with
  | some (key, value) => (state.1.entryPutRaw key value, false)
  | none => (state.1, true)

def requiredSpecials : List Key := [versionSpecial, walletKeySpecial, saltSpecial, checkSpecial, representativeSpecial]

-- The constructor on a JSON text, `none` if that is not JSON. Its fanout is one here.
def readFile (json : Option (List Member)) : WalletStore × Bool :=
  (json.getD []).foldl (putMember parse (json.getD [])) (⟨.empty, Fan.start 0 [], Fan.start 0 []⟩, json.isNone)

def fromJson (json : Option (List Member)) : WalletStore × Bool :=
  let (s, init) := readFile parse json
  let missing := requiredSpecials.any fun special => (s.entries.get special).isNone
  let s := s.passwordSet 0
  ({ s with walletKeyMem := s.walletKeyMem.valueSet (s.entryGetRaw walletKeySpecial).key }, init || missing)

-- One turn of the loop in `wallet_store::import`.
def importAccount (state : WalletStore × WalletStore × Bool) (row : Key × WalletValue) :
    Except Fault (WalletStore × WalletStore × Bool) := do
  let (into, other, result) := state
  match ← other.fetch env row.1 with
  | none => .ok (into, other, true)
  | some prv =>
      if result then .ok (into, other, true)
      else do
        let (into, _) ← into.insertAdhoc env prv
        let other ← other.erase row.1
        .ok (into, other, false)

def storeImport (s other : WalletStore) : Except Fault (WalletStore × Bool) := do
  ensure (s.validPassword env = true)
  ensure (other.validPassword env = true)
  let (s, _, result) ← other.accounts.foldlM (importAccount env) (s, other, false)
  .ok (s, result)

-- `wallet::import`. The wallet made of the file is destroyed in the end.
def walletImport (random : Key) (s : WalletStore) (json : Option (List Member)) (password : String) :
    Except Fault (WalletStore × Bool) :=
  let (temp, error) := fromJson parse json
  if error = true then .ok (s, true)
  else do
    let (temp, error) ← temp.attemptPassword env random password
    if error = true then .ok (s, true) else storeImport env s temp

end Model

def ImportComplete (env : WalletEnv) (parse : String → Option Key) (random : Key) (s : WalletStore) (json : Option (List Member))
    (password : String) : Prop :=
  (∀ t, walletImport env parse random s json password = .ok (t, false) → ∀ member ∈ json.getD [],
    (∀ key, decodeHex parse member.1 = some key → specialCount ≤ key) →
    ∃ key, decodeHex parse member.1 = some key ∧ t.exists key = true ∧ ∃ prv, t.fetch env key = .ok (some prv)) ∧
  ((∃ member ∈ json.getD [], decodeHex parse member.1 = none ∨ decodeHex parse member.2 = none) →
    ∃ t, walletImport env parse random s json password = .ok (t, true))

namespace WalletStore

section Values

variable (env : WalletEnv)

-- The value that the upgrade of a first version leaves for an account, given the two keys that an early version may have
-- used for it,
def repairedBy (byZero byEmpty : Key) (s : WalletStore) (pub : Key) (value : WalletValue) : WalletValue :=
  if (s.revealValue env pub value).isSome = true then value
  else if env.publicKey (env.decrypt value.key byZero s.iv) = pub then ⟨env.decrypt value.key byZero s.iv ^^^ s.check, 0⟩
  else if env.publicKey (env.decrypt value.key byEmpty s.iv) = pub then ⟨env.decrypt value.key byEmpty s.iv ^^^ s.check, 0⟩
  else value

-- which the zero and the empty password give.
def repaired (s : WalletStore) (pub : Key) (value : WalletValue) : WalletValue :=
  s.repairedBy env (env.decrypt (s.entryGetRaw walletKeySpecial).key 0 s.iv)
    (env.decrypt (s.entryGetRaw walletKeySpecial).key (s.deriveKey env "") s.iv) pub value

-- The upgrade of a second version makes a new seed and drops what was derived from the old one.
def Dropped (s : WalletStore) (value : WalletValue) : Prop := s.version = 2 ∧ keyType value = .deterministic

instance droppedDecidable (s : WalletStore) (value : WalletValue) : Decidable (s.Dropped value) := inferInstanceAs (Decidable (_ ∧ _))

def recovered (s : WalletStore) (pub : Key) (value : WalletValue) : Option Key :=
  s.revealValue env pub (if s.version = 1 then s.repaired env pub value else value)

def landed (file s : WalletStore) (pub : Key) : Option Key :=
  match file.entries.get pub with
  | none => s.reveal env pub
  | some value =>
      if file.Dropped value then s.reveal env pub
      else (file.recovered env pub value).bind fun prv => s.revealValue env pub ⟨prv ^^^ s.check, 0⟩

end Values

end WalletStore

def openedFile (env : WalletEnv) (parse : String → Option Key) (json : Option (List Member)) (password : String) : WalletStore :=
  (fromJson parse json).1.passwordSet ((fromJson parse json).1.deriveKey env password)

-- What makes the import return an error: the last member does not decode, an entry every wallet has is missing, the
-- password is wrong, or the importing wallet is unlocked and an account of the file cannot be read.
def ImportRefused (env : WalletEnv) (parse : String → Option Key) (s : WalletStore) (json : Option (List Member))
    (password : String) : Prop :=
  (∃ member, (json.getD []).getLast? = some member ∧ readMember parse (json.getD []) member = none) ∨
  (∃ special ∈ requiredSpecials, (openedFile env parse json password).entries.get special = none) ∨
  (openedFile env parse json password).validPassword env = false ∨
  (s.validPassword env = true ∧ ∃ pub value, specialCount ≤ pub ∧ (openedFile env parse json password).entries.get pub = some value ∧
    ¬ (openedFile env parse json password).Dropped value ∧ (openedFile env parse json password).recovered env pub value = none)

namespace WalletStore

variable {env : WalletEnv}

structure Alike (s t : WalletStore) : Prop where
  password : t.password = s.password
  mem : t.walletKeyMem = s.walletKeyMem
  check : t.entries.get checkSpecial = s.entries.get checkSpecial
  salt : t.entries.get saltSpecial = s.entries.get saltSpecial

theorem alike_check {s t : WalletStore} (alike : Alike s t) : t.check = s.check := by
  rw [check, check, entryGetRaw, entryGetRaw, alike.check]

theorem alike_iv {s t : WalletStore} (alike : Alike s t) : t.iv = s.iv := by
  rw [iv, iv, salt, salt, entryGetRaw, entryGetRaw, alike.salt]

theorem alike_valid {s t : WalletStore} (alike : Alike s t) : t.validPassword env = s.validPassword env := by
  rw [validPassword, validPassword, walletKey, walletKey, alike.password, alike.mem, alike_iv alike, alike_check alike]

theorem alike_put (s : WalletStore) (pub : Key) (account : specialCount ≤ pub) (value : WalletValue) :
    Alike s (s.entryPutRaw pub value) :=
  ⟨rfl, rfl, Table.get_put_ne _ _ _ _ (account_ne _ account (by decide)).symm, Table.get_put_ne _ _ _ _
    (account_ne _ account (by decide)).symm⟩

section Upgrades

variable (env)

theorem upgrade_loop (s : WalletStore) (first : s.version = 1) :
    s.upgradeV1V2 env = (do
      let t ← s.accounts.foldlM (repairAccount env (env.decrypt (s.entryGetRaw walletKeySpecial).key 0 s.iv)
        (env.decrypt (s.entryGetRaw walletKeySpecial).key (s.deriveKey env "") s.iv)) s
      .ok (t.versionPut 2)) := by
  rw [upgradeV1V2, ensure_true _ first]
  rfl

variable {env}

theorem repair_account_ok (byZero byEmpty : Key) (s : WalletStore) (valid : s.validPassword env = true) (row : Key × WalletValue)
    (held : s.entries.get row.1 = some row.2) :
    ∃ entries, repairAccount env byZero byEmpty s row = .ok { s with entries := entries } ∧
      entries.get row.1 = some (s.repairedBy env byZero byEmpty row.1 row.2) ∧ ∀ k, k ≠ row.1 → entries.get k = s.entries.get k := by
  have entry : s.entryGetRaw row.1 = row.2 := by rw [entryGetRaw, held]; rfl
  have written : ∀ prv, env.publicKey prv = row.1 → ∃ entries, (do
      let (s, _) ← s.insertAdhoc env prv
      .ok s : Except Fault WalletStore) = .ok { s with entries := entries } ∧ entries.get row.1 = some ⟨prv ^^^ s.check, 0⟩ ∧
      ∀ k, k ≠ row.1 → entries.get k = s.entries.get k := by
    intro prv owner
    refine ⟨s.entries.put row.1 ⟨prv ^^^ s.check, 0⟩, ?_, Table.get_put_self _ _ _, fun k other => Table.get_put_ne _ _ _ _ other⟩
    rw [insert_adhoc_valid s valid, bind_ok, owner]
    rfl
  unfold repairAccount repairedBy
  rw [fetch_valid s valid, bind_ok, reveal_entry s row.1 row.2 held, entry]
  cases revealed : s.revealValue env row.1 row.2 with
  | some prv => exact ⟨s.entries, rfl, held, fun _ _ => rfl⟩
  | none =>
      simp only [Option.isSome_none, Bool.false_eq_true, if_false]
      split
      · next owner => exact written _ owner
      · split
        · next owner => exact written _ owner
        · exact ⟨s.entries, rfl, held, fun _ _ => rfl⟩

theorem repaired_by_same (byZero byEmpty : Key) (s t : WalletStore) (alike : Alike s t)
    (seed : t.entryGetRaw seedSpecial = s.entryGetRaw seedSpecial) (pub : Key) (value : WalletValue) :
    t.repairedBy env byZero byEmpty pub value = s.repairedBy env byZero byEmpty pub value := by
  rw [repairedBy, repairedBy, reveal_value_same s t pub value (alike_check alike) seed, alike_iv alike, alike_check alike]

def Repairing (s t : WalletStore) : Prop := Alike s t ∧ t.entryGetRaw seedSpecial = s.entryGetRaw seedSpecial

theorem repair_own_entry (byZero byEmpty : Key) (s : WalletStore) (valid : s.validPassword env = true) :
    OwnEntry (repairAccount env byZero byEmpty) (fun pub value => some (s.repairedBy env byZero byEmpty pub value)) (Repairing s) := by
  rintro t row ⟨alike, seed⟩ account held
  obtain ⟨entries, stepped, own, others⟩ := repair_account_ok byZero byEmpty t ((alike_valid alike).trans valid) row held
  have special : ∀ special, special < specialCount → entries.get special = t.entries.get special := fun special low =>
    others special (account_ne special account low).symm
  refine ⟨entries, stepped, ⟨⟨alike.password, alike.mem, ?_, ?_⟩, ?_⟩, ?_, others⟩
  · exact (special _ (by decide)).trans alike.check
  · exact (special _ (by decide)).trans alike.salt
  · rw [entryGetRaw, special _ (by decide)]
    exact seed
  · rw [own, repaired_by_same byZero byEmpty s t alike seed]

structure Upgraded (env : WalletEnv) (s t : WalletStore) : Prop where
  valid : t.validPassword env = true
  kept : ∀ pub, specialCount ≤ pub → (t.entries.get pub ≠ none ↔ ∃ value, s.entries.get pub = some value ∧ ¬ s.Dropped value)
  reveals : ∀ pub value, specialCount ≤ pub → s.entries.get pub = some value → ¬ s.Dropped value →
    t.reveal env pub = s.recovered env pub value

theorem first_upgraded (s : WalletStore) (valid : s.validPassword env = true) (first : s.version = 1) :
    ∃ t, s.upgradeV1V2 env = .ok t ∧ Upgraded env s t := by
  have undropped : ∀ value, ¬ s.Dropped value := fun value dropped => by
    rw [Dropped, first] at dropped
    exact absurd dropped.1 (by decide)
  obtain ⟨entries, looped, _, accounts, special⟩ :=
    each_account (repair_own_entry (env.decrypt (s.entryGetRaw walletKeySpecial).key 0 s.iv)
    (env.decrypt (s.entryGetRaw walletKeySpecial).key (s.deriveKey env "") s.iv) s valid) s ⟨⟨rfl, rfl, rfl, rfl⟩, rfl⟩
  have account : ∀ pub, specialCount ≤ pub → (entries.put versionSpecial ⟨2, 0⟩).get pub =
    (s.entries.get pub).map (s.repaired env pub) := by
    intro pub high
    rw [Table.get_put_ne _ _ _ _ (account_ne _ high (by decide)), accounts pub high]
    cases s.entries.get pub <;> rfl
  have alike : Alike s { s with entries := entries.put versionSpecial ⟨2, 0⟩ } :=
    ⟨rfl, rfl, (Table.get_put_ne _ _ _ _ (by decide)).trans (special _ (by decide)),
      (Table.get_put_ne _ _ _ _ (by decide)).trans (special _ (by decide))⟩
  have seed : entryGetRaw { s with entries := entries.put versionSpecial ⟨2, 0⟩ } seedSpecial = s.entryGetRaw seedSpecial := by
    rw [entryGetRaw, entryGetRaw, Table.get_put_ne _ _ _ _ (by decide), special _ (by decide)]
  refine ⟨{ s with entries := entries.put versionSpecial ⟨2, 0⟩ }, ?_, (alike_valid alike).trans valid, fun pub high => ?_,
    fun pub value high held _ => ?_⟩
  · rw [upgrade_loop env s first, looped]
    rfl
  · rw [account pub high]
    cases held : s.entries.get pub with
    | none => simp
    | some value => simp [undropped]
  · rw [reveal_entry _ pub (s.repaired env pub value) (by rw [account pub high, held]; rfl),
      reveal_value_same s _ pub _ (alike_check alike) seed, recovered, if_pos first]

theorem second_upgraded (s : WalletStore) (valid : s.validPassword env = true) (second : s.version = 2) (random : Key) :
    ∃ t, s.upgradeV2V3 env random = .ok t ∧ Upgraded env s t := by
  obtain ⟨entries, seeded, accounts, _, specials⟩ := seed_set_valid s valid random
  let final := (entries.put deterministicIndexSpecial ⟨0, 0⟩).put versionSpecial ⟨3, 0⟩
  have account : ∀ pub, specialCount ≤ pub → final.get pub = (s.entries.get pub).filter fun value =>
    keyType value ≠ .deterministic := by
    intro pub high
    rw [Table.get_put_ne _ _ _ _ (account_ne _ high (by decide)), Table.get_put_ne _ _ _ _ (account_ne _ high (by decide)),
      accounts pub high]
  have special : ∀ special ∈ [checkSpecial, saltSpecial], final.get special = s.entries.get special := by
    intro special member
    simp only [List.mem_cons, List.not_mem_nil, or_false] at member
    obtain rfl | rfl := member
    · exact (Table.get_put_ne _ _ _ _ (by decide)).trans ((Table.get_put_ne _ _ _ _ (by decide)).trans
        (specials _ (by decide) (by decide) (by decide)))
    · exact (Table.get_put_ne _ _ _ _ (by decide)).trans ((Table.get_put_ne _ _ _ _ (by decide)).trans
        (specials _ (by decide) (by decide) (by decide)))
  have alike : Alike s { s with entries := final } := ⟨rfl, rfl, special _ (by simp), special _ (by simp)⟩
  refine ⟨{ s with entries := final }, ?_, (alike_valid alike).trans valid, fun pub high => ?_, fun pub value high held kept => ?_⟩
  · rw [upgradeV2V3, ensure_true _ second, bind_ok, seeded, bind_ok]
    rfl
  · rw [account pub high]
    cases held : s.entries.get pub with
    | none => simp
    | some value => by_cases derived : keyType value = .deterministic <;> simp [Dropped, second, derived, Option.filter]
  · have own : keyType value ≠ .deterministic := fun derived => kept ⟨second, derived⟩
    have entry : final.get pub = some value := by rw [account pub high, held]; simp [Option.filter, own]
    rw [reveal_entry _ pub value entry, reveal_value_check s _ pub value own (alike_check alike), recovered, second]
    rfl

theorem upgrade_ok (s : WalletStore) (valid : s.validPassword env = true) (random : Key) :
    ∃ t, s.upgrade env random = .ok t ∧ Upgraded env s t := by
  unfold upgrade
  split
  · next first => exact first_upgraded s valid first
  · next notFirst =>
      split
      · next second => exact second_upgraded s valid second random
      · next notSecond =>
          have undropped : ∀ value, ¬ s.Dropped value := fun value dropped => notSecond dropped.1
          refine ⟨s, rfl, valid, fun pub _ => ?_, fun pub value _ held _ => ?_⟩
          · simp [undropped, Option.ne_none_iff_exists']
          · rw [reveal_entry s pub value held, recovered, if_neg notFirst]

end Upgrades

section Importing

theorem import_stopped (rows : List (Key × WalletValue)) (s other : WalletStore) (valid : other.validPassword env = true) :
    rows.foldlM (importAccount env) (s, other, true) = .ok (s, other, true) := by
  induction rows with
  | nil => rfl
  | cons row rows ih =>
      have stepped : importAccount env (s, other, true) row = .ok (s, other, true) := by
        unfold importAccount
        dsimp only
        rw [fetch_valid other valid, bind_ok]
        cases other.reveal env row.1 <;> rfl
      rw [List.foldlM_cons, stepped, bind_ok, ih]

theorem alike_erased (s : WalletStore) (pub : Key) (account : specialCount ≤ pub) : Alike s { s with entries := s.entries.del pub } :=
  ⟨rfl, rfl, Table.get_del_ne _ _ _ (account_ne _ account (by decide)).symm, Table.get_del_ne _ _ _
    (account_ne _ account (by decide)).symm⟩

theorem reveal_erased (s : WalletStore) (pub query : Key) (account : specialCount ≤ pub) (other : query ≠ pub) :
    reveal env { s with entries := s.entries.del pub } query = s.reveal env query := by
  apply reveal_same
  · rw [entryGetRaw, entryGetRaw, Table.get_del_ne _ _ _ other]
  · exact alike_check (alike_erased s pub account)
  · rw [entryGetRaw, entryGetRaw, Table.get_del_ne _ _ _ (account_ne _ account (by decide)).symm]

theorem import_account_ok (s other : WalletStore) (valid : s.validPassword env = true) (otherValid : other.validPassword env = true)
    (row : Key × WalletValue) (held : other.entries.get row.1 = some row.2) (prv : Key) (revealed : other.reveal env row.1 = some prv) :
    importAccount env (s, other, false) row =
      .ok (s.entryPutRaw row.1 ⟨prv ^^^ s.check, 0⟩, { other with entries := other.entries.del row.1 }, false) := by
  have owner : env.publicKey prv = row.1 := reveal_value_owner other row.1 prv row.2
    ((reveal_entry other row.1 row.2 held).symm.trans revealed)
  unfold importAccount
  dsimp only
  rw [fetch_valid other otherValid, bind_ok, revealed]
  simp only [Bool.false_eq_true, if_false, insert_adhoc_valid s valid, bind_ok, erase, held, Option.isSome_some, ensure_true, owner]

theorem import_rows (rows : List (Key × WalletValue)) (s other : WalletStore) (valid : s.validPassword env = true)
    (otherValid : other.validPassword env = true) (once : (rows.map Prod.fst).Nodup)
    (present : ∀ row ∈ rows, other.entries.get row.1 = some row.2 ∧ specialCount ≤ row.1) :
    ∃ entries rest failed, rows.foldlM (importAccount env) (s, other, false) = .ok ({ s with entries := entries }, rest, failed) ∧
      (failed = true ↔ ∃ row ∈ rows, other.reveal env row.1 = none) ∧
      (failed = false → (∀ row ∈ rows, ∀ prv, other.reveal env row.1 = some prv → entries.get row.1 = some ⟨prv ^^^ s.check, 0⟩) ∧
        ∀ k, k ∉ rows.map Prod.fst → entries.get k = s.entries.get k) := by
  induction rows generalizing s other with
  | nil => exact ⟨s.entries, other, false, rfl, by simp, fun _ => ⟨by simp, fun _ _ => rfl⟩⟩
  | cons row rows ih =>
      obtain ⟨different, once⟩ := List.nodup_cons.mp once
      obtain ⟨⟨held, account⟩, later⟩ := List.forall_mem_cons.mp present
      cases revealed : other.reveal env row.1 with
      | none =>
          refine ⟨s.entries, other, true, ?_, ⟨fun _ => ⟨row, List.mem_cons_self, revealed⟩, fun _ => rfl⟩,
            fun failed => by cases failed⟩
          have stepped : importAccount env (s, other, false) row = .ok (s, other, true) := by
            unfold importAccount
            dsimp only
            rw [fetch_valid other otherValid, bind_ok, revealed]
          rw [List.foldlM_cons, stepped, bind_ok, import_stopped rows s other otherValid]
      | some prv =>
          have apart : ∀ next ∈ rows, next.1 ≠ row.1 := fun next member same => different (same ▸ List.mem_map_of_mem member)
          have alike := alike_put s row.1 account ⟨prv ^^^ s.check, 0⟩
          -- The rest of the file reveals what it did.
          have reveals : ∀ next ∈ rows, reveal env { other with entries := other.entries.del row.1 } next.1 = other.reveal env next.1 :=
            fun next member => reveal_erased other row.1 next.1 account (apart next member)
          obtain ⟨entries, rest, failed, looped, unread, written⟩ := ih (s.entryPutRaw row.1 ⟨prv ^^^ s.check, 0⟩)
            { other with entries := other.entries.del row.1 } ((alike_valid alike).trans valid)
            ((alike_valid (alike_erased other row.1 account)).trans otherValid) once fun next member => by
              rw [Table.get_del_ne _ _ _ (apart next member)]
              exact later next member
          refine ⟨entries, rest, failed, ?_, unread.trans ?_, fun clean => ?_⟩
          · rw [List.foldlM_cons, import_account_ok s other valid otherValid row held prv revealed, bind_ok]
            exact looped
          · simp only [List.exists_mem_cons_iff, revealed, reduceCtorEq, false_or]
            exact exists_congr fun next => and_congr_right fun member => by rw [reveals next member]
          · obtain ⟨inside, outside⟩ := written clean
            refine ⟨List.forall_mem_cons.mpr ⟨fun key same => ?_, fun next member key shown => ?_⟩, fun k unlisted => ?_⟩
            · obtain rfl : prv = key := Option.some.inj (revealed.symm.trans same)
              rw [outside row.1 different, get_put, if_pos rfl]
            · rw [inside next member key ((reveals next member).trans shown), alike_check alike]
            · obtain ⟨other, absent⟩ := not_or.mp (List.mem_cons.not.mp unlisted)
              rw [outside k absent, get_put, if_neg other]

structure Imported (env : WalletEnv) (s other t : WalletStore) : Prop where
  valid : t.validPassword env = true
  kept : ∀ pub, specialCount ≤ pub → other.entries.get pub = none → t.reveal env pub = s.reveal env pub
  moved : ∀ pub, specialCount ≤ pub → other.entries.get pub ≠ none →
    t.reveal env pub = (other.reveal env pub).bind fun prv => s.revealValue env pub ⟨prv ^^^ s.check, 0⟩

theorem store_import_ok (s other : WalletStore) (valid : s.validPassword env = true) (otherValid : other.validPassword env = true) :
    ∃ t failed, storeImport env s other = .ok (t, failed) ∧
      (failed = true ↔ ∃ pub, specialCount ≤ pub ∧ other.entries.get pub ≠ none ∧ other.reveal env pub = none) ∧
      (failed = false → Imported env s other t) := by
  obtain ⟨entries, rest, failed, looped, unread, written⟩ := import_rows other.accounts s other valid otherValid other.accounts_once
    fun row => (other.mem_accounts row).mp
  have failure : (∃ row ∈ other.accounts, other.reveal env row.1 = none) ↔
      ∃ pub, specialCount ≤ pub ∧ other.entries.get pub ≠ none ∧ other.reveal env pub = none := by
    constructor
    · intro ⟨row, member, hidden⟩
      obtain ⟨held, account⟩ := (other.mem_accounts row).mp member
      exact ⟨row.1, account, by rw [held]; simp, hidden⟩
    · intro ⟨pub, account, present, hidden⟩
      obtain ⟨value, held⟩ := Option.ne_none_iff_exists'.mp present
      exact ⟨(pub, value), (other.mem_accounts (pub, value)).mpr ⟨held, account⟩, hidden⟩
  refine ⟨{ s with entries := entries }, failed, ?_, unread.trans failure, fun clean => ?_⟩
  · rw [storeImport, ensure_true _ valid, bind_ok, ensure_true _ otherValid, bind_ok, looped]
    rfl
  · obtain ⟨inside, outside⟩ := written clean
    have listed : ∀ k, k ∈ other.accounts.map Prod.fst → other.entries.get k ≠ none ∧ specialCount ≤ k := by
      intro k member
      obtain ⟨row, within, rfl⟩ := List.mem_map.mp member
      obtain ⟨held, account⟩ := (other.mem_accounts row).mp within
      exact ⟨by rw [held]; simp, account⟩
    have special : ∀ special, special < specialCount → entries.get special = s.entries.get special := fun special low =>
      outside special fun member => absurd (listed special member).2 (not_le.mpr low)
    have alike : Alike s { s with entries := entries } := ⟨rfl, rfl, special _ (by decide), special _ (by decide)⟩
    have seed : entryGetRaw { s with entries := entries } seedSpecial = s.entryGetRaw seedSpecial := by
      rw [entryGetRaw, entryGetRaw, special _ (by decide)]
    refine ⟨(alike_valid alike).trans valid, fun pub _ absent => ?_, fun pub account present => ?_⟩
    · refine reveal_same s _ pub ?_ (alike_check alike) seed
      rw [entryGetRaw, entryGetRaw, outside pub fun member => (listed pub member).1 absent]
    · obtain ⟨value, held⟩ := Option.ne_none_iff_exists'.mp present
      have member : (pub, value) ∈ other.accounts := (other.mem_accounts (pub, value)).mpr ⟨held, account⟩
      cases revealed : other.reveal env pub with
      | none => exact absurd (unread.mpr ⟨(pub, value), member, revealed⟩) (by simp [clean])
      | some prv =>
          rw [reveal_entry _ pub _ (inside (pub, value) member prv revealed)]
          exact reveal_value_same s _ pub _ (alike_check alike) seed

theorem store_import_locked (s other : WalletStore) (locked : s.validPassword env = false) :
    storeImport env s other = .error .abort := by
  rw [storeImport, locked]
  rfl

end Importing

end WalletStore

section Reading

variable {parse : String → Option Key} {members : List Member}

theorem read_error (rest : List Member) (state : WalletStore × Bool) :
    (rest.foldl (putMember parse members) state).2 = (rest.getLast?.map fun member =>
    (readMember parse members member).isNone).getD state.2 := by
  induction rest using List.reverseRecOn with
  | nil => rfl
  | append_singleton rest member _ =>
      rw [List.foldl_append, List.getLast?_append, List.getLast?_singleton, Option.some_or, Option.map_some, Option.getD_some]
      simp only [List.foldl_cons, List.foldl_nil, putMember]
      cases readMember parse members member <;> rfl

theorem read_entries (rest : List Member) (state : WalletStore × Bool) (key : Key) :
    (rest.foldl (putMember parse members) state).1.entries.get key ≠ none ↔
      state.1.entries.get key ≠ none ∨ ∃ member ∈ rest, ∃ value, readMember parse members member = some (key, value) := by
  induction rest generalizing state with
  | nil => simp
  | cons member rest ih =>
      rw [List.foldl_cons, ih, List.exists_mem_cons_iff, ← or_assoc]
      apply or_congr_left
      rw [putMember]
      cases read : readMember parse members member with
      | none => simp
      | some row =>
          dsimp only
          rw [WalletStore.get_put]
          by_cases same : key = row.1
          · simp [same, Prod.ext_iff]
          · simp [same, Prod.ext_iff, Ne.symm same]

end Reading

section Outcome

variable {env : WalletEnv} {parse : String → Option Key}

theorem opened_entries (env : WalletEnv) (json : Option (List Member)) (password : String) (key : Key) :
    (openedFile env parse json password).entries.get key ≠ none ↔
      ∃ member ∈ json.getD [], ∃ value, readMember parse (json.getD []) member = some (key, value) :=
  (read_entries (json.getD []) _ key).trans (or_iff_right (not_not_intro rfl))

theorem from_json_error (env : WalletEnv) (json : Option (List Member)) (password : String) :
    (fromJson parse json).2 = true ↔
      (∃ member, (json.getD []).getLast? = some member ∧ readMember parse (json.getD []) member = none) ∨
      ∃ special ∈ requiredSpecials, (openedFile env parse json password).entries.get special = none := by
  have flag : (fromJson parse json).2 = ((readFile parse json).2 ||
      requiredSpecials.any fun special => ((openedFile env parse json password).entries.get special).isNone) := rfl
  have missing : (requiredSpecials.any fun special => ((openedFile env parse json password).entries.get special).isNone) = true ↔
      ∃ special ∈ requiredSpecials, (openedFile env parse json password).entries.get special = none := by simp
  rw [flag, Bool.or_eq_true, missing, readFile, read_error]
  cases last : (json.getD []).getLast? with
  | some member => simp
  | none =>
      -- A text with no members has none of the entries, whether it is JSON or not.
      have empty : json.getD [] = [] := List.getLast?_eq_none_iff.mp last
      have absent : (openedFile env parse json password).entries.get versionSpecial = none := by
        by_contra present
        obtain ⟨member, listed, _⟩ := (opened_entries env json password versionSpecial).mp present
        rw [empty] at listed
        cases listed
      have lacks : ∃ special ∈ requiredSpecials, (openedFile env parse json password).entries.get special = none :=
        ⟨versionSpecial, by decide, absent⟩
      simp only [lacks, or_true]

theorem import_unopened (random : Key) (s : WalletStore) (json : Option (List Member)) (password : String)
    (unopened : (fromJson parse json).2 = true ∨ (openedFile env parse json password).validPassword env = false) :
    walletImport env parse random s json password = .ok (s, true) := by
  unfold walletImport
  dsimp only
  split
  · rfl
  · next readable =>
      have wrong : (openedFile env parse json password).validPassword env = false := unopened.resolve_left readable
      have attempted : (fromJson parse json).1.attemptPassword env random password =
        .ok (openedFile env parse json password, true) := by
        change (if (openedFile env parse json password).validPassword env = true then _ else _) = _
        rw [wrong]
        rfl
      rw [attempted]
      rfl

theorem import_opened (random : Key) (s : WalletStore) (json : Option (List Member)) (password : String)
    (readable : (fromJson parse json).2 = false) (valid : (openedFile env parse json password).validPassword env = true) :
    ∃ file, walletImport env parse random s json password = storeImport env s file ∧
      WalletStore.Upgraded env (openedFile env parse json password) file := by
  obtain ⟨file, upgrades, upgraded⟩ := WalletStore.upgrade_ok _ valid random
  refine ⟨file, ?_, upgraded⟩
  have attempted : (fromJson parse json).1.attemptPassword env random password = .ok (file, false) := by
    change (if (openedFile env parse json password).validPassword env = true then
      (openedFile env parse json password).upgrade env random >>= fun s => .ok (s, false) else _) = _
    rw [if_pos valid, upgrades]
    rfl
  unfold walletImport
  dsimp only
  rw [readable, if_neg Bool.false_ne_true, attempted]
  rfl

theorem upgraded_unread {file upgraded : WalletStore} (after : WalletStore.Upgraded env file upgraded) :
    (∃ pub, specialCount ≤ pub ∧ upgraded.entries.get pub ≠ none ∧ upgraded.reveal env pub = none) ↔
      ∃ pub value, specialCount ≤ pub ∧ file.entries.get pub = some value ∧ ¬ file.Dropped value ∧
      file.recovered env pub value = none := by
  constructor
  · intro ⟨pub, account, present, hidden⟩
    obtain ⟨value, held, kept⟩ := (after.kept pub account).mp present
    exact ⟨pub, value, account, held, kept, (after.reveals pub value account held kept).symm.trans hidden⟩
  · intro ⟨pub, value, account, held, kept, hidden⟩
    exact ⟨pub, account, (after.kept pub account).mpr ⟨value, held, kept⟩, (after.reveals pub value account held kept).trans hidden⟩

theorem imported_landed {file upgraded s t : WalletStore} (after : WalletStore.Upgraded env file upgraded)
    (imported : WalletStore.Imported env s upgraded t) (pub : Key) (account : specialCount ≤ pub) :
    t.reveal env pub = file.landed env s pub := by
  have kept := after.kept pub account
  unfold WalletStore.landed
  cases held : file.entries.get pub with
  | none => exact imported.kept pub account (by simpa [held] using kept)
  | some value =>
      dsimp only
      split
      · next dropped => exact imported.kept pub account (by simpa [held, dropped] using kept)
      · next stays =>
          rw [imported.moved pub account (kept.mpr ⟨value, held, stays⟩), after.reveals pub value account held stays]

theorem import_refused (random : Key) (s : WalletStore) (json : Option (List Member)) (password : String)
    (refused : ImportRefused env parse s json password) : ∃ t, walletImport env parse random s json password = .ok (t, true) := by
  by_cases unopened : (fromJson parse json).2 = true ∨ (openedFile env parse json password).validPassword env = false
  · exact ⟨s, import_unopened random s json password unopened⟩
  · obtain ⟨readable, opened⟩ := not_or.mp unopened
    have file := not_or.mp (mt (from_json_error env json password).mpr readable)
    obtain ⟨valid, unread⟩ := ((refused.resolve_left file.1).resolve_left file.2).resolve_left opened
    obtain ⟨upgraded, imports, after⟩ := import_opened random s json password (eq_false_of_ne_true readable)
      (eq_true_of_ne_false opened)
    obtain ⟨t, failed, stored, failure, _⟩ := WalletStore.store_import_ok s upgraded valid after.valid
    obtain rfl : failed = true := failure.mpr ((upgraded_unread after).mpr unread)
    exact ⟨t, imports.trans stored⟩

theorem accepted_opened (random : Key) (s : WalletStore) (json : Option (List Member)) (password : String)
    (accepted : ¬ ImportRefused env parse s json password) :
    ∃ file, walletImport env parse random s json password = storeImport env s file ∧
      WalletStore.Upgraded env (openedFile env parse json password) file := by
  obtain ⟨last, accepted⟩ := not_or.mp accepted
  obtain ⟨present, accepted⟩ := not_or.mp accepted
  obtain ⟨opened, _⟩ := not_or.mp accepted
  have readable : (fromJson parse json).2 = false := eq_false_of_ne_true fun error =>
    ((from_json_error env json password).mp error).elim last present
  exact import_opened random s json password readable (eq_true_of_ne_false opened)

theorem import_accepted (random : Key) (s : WalletStore) (json : Option (List Member)) (password : String)
    (accepted : ¬ ImportRefused env parse s json password) (valid : s.validPassword env = true) :
    ∃ t, walletImport env parse random s json password = .ok (t, false) ∧ t.validPassword env = true ∧
      ∀ pub, specialCount ≤ pub → t.reveal env pub = (openedFile env parse json password).landed env s pub := by
  obtain ⟨upgraded, imports, after⟩ := accepted_opened random s json password accepted
  obtain ⟨t, failed, stored, failure, imported⟩ := WalletStore.store_import_ok s upgraded valid after.valid
  have clean : failed = false := eq_false_of_ne_true fun failed =>
    accepted (.inr (.inr (.inr ⟨valid, (upgraded_unread after).mp (failure.mp failed)⟩)))
  subst clean
  exact ⟨t, imports.trans stored, (imported rfl).valid, imported_landed after (imported rfl)⟩

theorem import_locked (random : Key) (s : WalletStore) (json : Option (List Member)) (password : String)
    (accepted : ¬ ImportRefused env parse s json password) (locked : s.validPassword env = false) :
    walletImport env parse random s json password = .error .abort := by
  obtain ⟨upgraded, imports, _⟩ := accepted_opened random s json password accepted
  exact imports.trans (WalletStore.store_import_locked s upgraded locked)

theorem accepted_quiet (random : Key) (s t : WalletStore) (json : Option (List Member)) (password : String)
    (accepted : ¬ ImportRefused env parse s json password) : walletImport env parse random s json password ≠ .ok (t, true) := by
  cases valid : s.validPassword env with
  | true =>
      obtain ⟨into, imported, _⟩ := import_accepted random s json password accepted valid
      rw [imported]
      simp
  | false =>
      rw [import_locked random s json password accepted valid]
      simp

theorem read_named (members : List Member) (member : Member) (key : Key) (value : WalletValue)
    (read : readMember parse members member = some (key, value)) : decodeHex parse member.1 = some key := by
  obtain ⟨named, decoded, valued⟩ := Option.bind_eq_some_iff.mp read
  obtain ⟨_, _, same⟩ := Option.map_eq_some_iff.mp valued
  exact decoded.trans (congrArg some (Prod.ext_iff.mp same).1)

-- The value read is that of the first member of the name, so all of them have to decode.
theorem decoded_read (members : List Member) (decodes : ∀ member ∈ members, decodeHex parse member.2 ≠ none) (member : Member)
    (listed : member ∈ members) (key : Key) (named : decodeHex parse member.1 = some key) :
    ∃ value, readMember parse members member = some (key, value) := by
  have found : (members.find? fun other => other.1 = member.1).isSome = true := by
    rw [List.find?_isSome]
    exact ⟨member, listed, by simp⟩
  obtain ⟨first, first_found⟩ := Option.isSome_iff_exists.mp found
  obtain ⟨value, decoded⟩ := Option.ne_none_iff_exists'.mp (decodes first (List.mem_of_find?_eq_some first_found))
  refine ⟨⟨value, 0⟩, ?_⟩
  rw [readMember, named, Option.bind_some, memberText, first_found, Option.map_some, Option.getD_some, decoded]
  rfl

-- Only the last member's error is kept: where nothing else refuses the file, an earlier member that does not decode is lost
-- without an error.
theorem import_complete_iff (env : WalletEnv) (parse : String → Option Key) (random : Key) (s : WalletStore)
    (json : Option (List Member)) (password : String) :
    ImportComplete env parse random s json password ↔ ImportRefused env parse s json password ∨
      (∀ member ∈ json.getD [], decodeHex parse member.1 ≠ none ∧ decodeHex parse member.2 ≠ none) ∧
      (s.validPassword env = true → ∀ pub, specialCount ≤ pub → (openedFile env parse json password).entries.get pub ≠ none →
        (openedFile env parse json password).landed env s pub ≠ none) := by
  by_cases refused : ImportRefused env parse s json password
  · obtain ⟨t, errored⟩ := import_refused random s json password refused
    refine ⟨fun _ => .inl refused, fun _ => ⟨fun other clean => ?_, fun _ => ⟨t, errored⟩⟩⟩
    rw [errored] at clean
    simp at clean
  · rw [or_iff_right refused]
    constructor
    · intro ⟨complete, strict⟩
      refine ⟨fun member listed => ?_, fun valid pub account present => ?_⟩
      · by_contra undecoded
        obtain ⟨t, errored⟩ := strict ⟨member, listed, (not_and_or.mp undecoded).imp not_not.mp not_not.mp⟩
        exact accepted_quiet random s t json password refused errored
      · obtain ⟨t, imported, unlocked, reveals⟩ := import_accepted random s json password refused valid
        obtain ⟨member, listed, value, read⟩ := (opened_entries env json password pub).mp present
        have named := read_named _ member pub value read
        obtain ⟨key, decoded, _, prv, fetched⟩ := complete t imported member listed fun key decoded => by
          rwa [← Option.some.inj (named.symm.trans decoded)]
        obtain rfl : pub = key := Option.some.inj (named.symm.trans decoded)
        rw [WalletStore.fetch_valid t unlocked] at fetched
        rw [← reveals pub account, Except.ok.inj fetched]
        simp
    · intro ⟨decodes, lands⟩
      refine ⟨fun t clean member listed account => ?_, fun ⟨member, listed, undecoded⟩ => ?_⟩
      · have valid : s.validPassword env = true := by
          by_contra locked
          rw [import_locked random s json password refused (eq_false_of_ne_true locked)] at clean
          cases clean
        obtain ⟨into, imported, unlocked, reveals⟩ := import_accepted random s json password refused valid
        obtain rfl : into = t := (Prod.ext_iff.mp (Except.ok.inj (imported.symm.trans clean))).1
        obtain ⟨key, named⟩ := Option.ne_none_iff_exists'.mp (decodes member listed).1
        obtain ⟨value, read⟩ := decoded_read _ (fun other within => (decodes other within).2) member listed key named
        have present := (opened_entries env json password key).mpr ⟨member, listed, value, read⟩
        have landed := lands valid key (account key named) present
        rw [← reveals key (account key named)] at landed
        obtain ⟨prv, revealed⟩ := Option.ne_none_iff_exists'.mp landed
        refine ⟨key, named, ?_, prv, by rw [WalletStore.fetch_valid into unlocked, revealed]⟩
        exact Option.isSome_iff_ne_none.mpr fun absent => landed (WalletStore.reveal_missing into key absent)
      · obtain ⟨named, valued⟩ := decodes member listed
        exact absurd undecoded (not_or.mpr ⟨named, valued⟩)

end Outcome

def hexNumber (text : String) : Option Key :=
  text.toList.foldlM (fun number digit => ("0123456789ABCDEF".toList.idxOf? digit).map fun value =>
    number * 16 + BitVec.ofNat 256 value) 0

def sampleWalletFile : List Member :=
  [("5G", "100000000000000000000000000000000000000000000000009"), ("0", "3"), ("1", "1"),
    ("2", "100000000000000000000000000000000000000000000000009"),
    ("3", "100000000000000000000000000000000000000000000000009"), ("4", "0")]

theorem import_loses_account : ∃ s t, WalletStore.create sampleWalletEnv 0 1 9 5 [] [] = .ok s ∧ decodeHex hexNumber "5G" = none ∧
    walletImport sampleWalletEnv hexNumber 0 s (some sampleWalletFile) "" = .ok (t, false) ∧
    ¬ ImportComplete sampleWalletEnv hexNumber 0 s (some sampleWalletFile) "" := by
  obtain ⟨s, created, _⟩ := @create_keeps sampleWalletEnv 0 1 9 [] [] 5
  have undecoded : decodeHex hexNumber "5G" = none := by decide +kernel
  have computed : (WalletStore.create sampleWalletEnv 0 1 9 5 [] [] >>= fun s =>
      (walletImport sampleWalletEnv hexNumber 0 s (some sampleWalletFile) "").map Prod.snd) = .ok false := by decide +kernel
  rw [created, bind_ok] at computed
  obtain ⟨⟨t, error⟩, imported, flag⟩ := map_returned computed
  obtain rfl : error = false := flag
  refine ⟨s, t, created, undecoded, imported, fun complete => ?_⟩
  obtain ⟨into, errored⟩ := complete.2 ⟨_, List.mem_cons_self, .inl undecoded⟩
  rw [imported] at errored
  simp at errored

end Rai
