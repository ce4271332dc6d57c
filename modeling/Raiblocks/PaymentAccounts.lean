import Mathlib.Data.Finset.Sort
import Raiblocks.Kit.Leases
import Raiblocks.Kit.Runs
import Raiblocks.RpcSend
import Raiblocks.WalletKeys

set_option autoImplicit false

namespace Rai

open Kit

-- A wallet of the node, with the accounts that `payment_begin` may hand out.
structure Wallet where
  store : WalletStore
  freeAccounts : Finset Account

structure FreeOrder where
  list : Finset Account → List Account
  distinct : ∀ free, (list free).Nodup
  lists : ∀ free account, account ∈ list free ↔ account ∈ free

def latestRoot (s : Store) (account : Account) : Hash := ((s.accounts.get account).map AccountInfo.head).getD account

section Model

variable (texts : Texts) (node : WalletNode) (items : Table Key Wallet) (s : Store) (request : Ptree)

def WalletStore.workEnsure (store : WalletStore) (account : Account) : Except Fault Bool := do
  ensure (store.exists account = true)
  let work ← require (store.workGet account)
  .ok (workRejected node.env (latestRoot s account) work)

namespace Wallet

def deterministicInsert (fuel : Nat) (store : WalletStore) : Except Fault (WalletStore × Account) :=
  if store.validPassword node.keys then do
    let (store, key) ← store.deterministicInsert node.keys fuel
    let _ ← store.workEnsure node s key
    .ok (store, key)
  else .ok (store, 0)

def initFreeAccounts (wallet : Wallet) : Wallet := { wallet with freeAccounts := (wallet.store.accounts.map Prod.fst).toFinset }

-- The loop of `payment_begin` over the free accounts: each one it looks at is no longer free. An account is cleared if it is not
-- in the wallet any more or has a balance, and the loop goes on while the account is zero.
def takeFree (store : WalletStore) : List Account → Option (Account × List Account)
  | [] => none
  | account :: rest =>
      if store.exists account = false then takeFree store rest
      else if ledgerAccountBalance s account ≠ 0 then takeFree store rest
      else if account = 0 then takeFree store rest
      else some (account, rest)

-- Where no free account is left, a new one is made.
def beginAccount (fuel : Nat) (order : FreeOrder) (wallet : Wallet) : Except Fault (Wallet × Account) :=
  match takeFree s wallet.store (order.list wallet.freeAccounts) with
  | some (account, rest) => .ok ({ wallet with freeAccounts := rest.toFinset }, account)
  | none => do
      let (store, account) ← deterministicInsert node s fuel wallet.store
      .ok (⟨store, ∅⟩, account)

end Wallet

structure PaymentOutcome where
  response : Ptree
  items : Table Key Wallet
  account : Option (Key × Account)

def beginChecks : Checks (Key × Wallet) := do
  let walletText ← requiredText request "wallet"
  let id ← refuseUnless "Bad wallet number" (UInt256Union.decodeHex texts walletText)
  let wallet ← refuseUnless "Unable to find wallets" (items.get id)
  refuseUnless "Wallet locked" (if wallet.store.validPassword node.keys then some (id, wallet) else none)

def paymentBegin (fuel : Nat) (order : FreeOrder) : Except Fault PaymentOutcome := do
  match ← (beginChecks texts node items request).run with
  | .error message => .ok ⟨errorResponse message, items, none⟩
  | .ok (id, wallet) => do
      let (wallet, account) ← wallet.beginAccount node s fuel order
      if account ≠ 0 then .ok ⟨Ptree.put [] "account" (encodeAccount texts account), items.put id wallet, some (id, account)⟩
      else .ok ⟨errorResponse "Unable to create transaction account", items.put id wallet, none⟩

def statusResponse (status : String) : Ptree := Ptree.put [] "status" status.toList

-- A missing wallet and a locked one are no errors here.
def paymentInit : Ptree × Table Key Wallet :=
  match request.get "wallet" with
  | none => (errorResponse "Unable to parse JSON", items)
  | some walletText =>
      match UInt256Union.decodeHex texts walletText with
      | none => (errorResponse "Bad transaction wallet number", items)
      | some id =>
          match items.get id with
          | none => (statusResponse "Unable to find transaction wallet", items)
          | some wallet =>
              if wallet.store.validPassword node.keys then (statusResponse "Ready", items.put id wallet.initFreeAccounts)
              else (statusResponse "Transaction wallet locked", items)

def endChecks : Checks (Key × Wallet × Account) := do
  let walletText ← requiredText request "wallet"
  let accountText ← requiredText request "account"
  let id ← refuseUnless "Bad wallet number" (UInt256Union.decodeHex texts walletText)
  let wallet ← refuseUnless "Unable to find wallet" (items.get id)
  let account ← refuseUnless "Invalid account number" (← decodeAccount texts accountText)
  let _ ← refuseUnless "Account not in wallet" (wallet.store.entries.get account)
  refuseUnless "Account has non-zero balance" (if ledgerAccountBalance s account = 0 then some (id, wallet, account) else none)

def paymentEnd : Except Fault PaymentOutcome := do
  match ← (endChecks texts items s request).run with
  | .error message => .ok ⟨errorResponse message, items, none⟩
  | .ok (id, wallet, account) =>
      .ok ⟨[], items.put id { wallet with freeAccounts := insert account wallet.freeAccounts }, some (id, account)⟩

end Model

inductive PaymentEvent where
  | begun (wallet : Key) (account : Account) (balance : Amount)
  | ended (wallet : Key) (account : Account)

structure Paying where
  items : Table Key Wallet
  ledger : Store
  log : List PaymentEvent

inductive PayAction where
  | begin (fuel : Nat) (order : FreeOrder) (request : Ptree)
  | finish (request : Ptree)
  | change (ledger : Store)

inductive PayStep (texts : Texts) (node : WalletNode) : Paying → PayAction → Paying → Prop where
  | begin (s : Paying) (fuel : Nat) (order : FreeOrder) (request : Ptree) (out : PaymentOutcome)
      (returned : paymentBegin texts node s.items s.ledger request fuel order = .ok out) :
      PayStep texts node s (.begin fuel order request) ⟨out.items, s.ledger,
        s.log ++ out.account.toList.map fun given => .begun given.1 given.2 (ledgerAccountBalance s.ledger given.2)⟩
  | finish (s : Paying) (request : Ptree) (out : PaymentOutcome) (returned : paymentEnd texts s.items s.ledger request = .ok out) :
      PayStep texts node s (.finish request) ⟨out.items, s.ledger, s.log ++ out.account.toList.map fun taken => .ended taken.1 taken.2⟩
  | change (s : Paying) (ledger : Store) : PayStep texts node s (.change ledger) { s with ledger := ledger }

def PaymentEvent.lease : PaymentEvent → Lease (Key × Account)
  | .begun wallet account _ => .out (wallet, account)
  | .ended wallet account => .back (wallet, account)

structure Orderly (log : List PaymentEvent) : Prop where
  exclusive : Lease.Exclusive (log.map PaymentEvent.lease)
  empty : ∀ wallet account balance, PaymentEvent.begun wallet account balance ∈ log → balance = 0

def WalletStore.NextAccount (env : WalletEnv) (store : WalletStore) (pub : Account) : Prop :=
  ∃ n : Nat, pub = env.publicKey (env.deterministicKey (store.seed env) (store.deterministicIndexGet + BitVec.ofNat 32 n)) ∧
    store.exists pub = false ∧
    ∀ m < n, store.exists (env.publicKey (env.deterministicKey (store.seed env) (store.deterministicIndexGet + BitVec.ofNat 32 m))) =
      true

def Wallet.Spent (s : Store) (wallet : Wallet) : Prop :=
  ∀ account ∈ wallet.freeAccounts, wallet.store.exists account = true → ledgerAccountBalance s account = 0 → account = 0

def Paying.Unused (texts : Texts) (node : WalletNode) (s : Paying) : PayAction → Prop
  | .begin _ _ request => ∀ walletText id wallet, request.get "wallet" = some walletText →
    UInt256Union.decodeHex texts walletText = some id →
      s.items.get id = some wallet → wallet.store.validPassword node.keys = true → wallet.Spent s.ledger →
      ∀ pub, pub ≠ 0 → wallet.store.NextAccount node.keys pub → ledgerAccountBalance s.ledger pub = 0
  | _ => True

section Steps

variable {node : WalletNode} {s : Store}

theorem unused_key_next {env : WalletEnv} {store : WalletStore} (fuel : Nat) (index found : BitVec 32) (pub : Account)
    (returned : store.unusedKey env fuel index = .ok (found, pub)) :
    ∃ n : Nat, pub = env.publicKey (env.deterministicKey (store.seed env) (index + BitVec.ofNat 32 n)) ∧ store.exists pub = false ∧
      ∀ m < n, store.exists (env.publicKey (env.deterministicKey (store.seed env) (index + BitVec.ofNat 32 m))) = true := by
  induction fuel generalizing index with
  | zero => cases returned
  | succ fuel ih =>
      have valid := (unused_key_returned (fuel + 1) index found pub returned).1
      simp only [WalletStore.unusedKey, WalletStore.deterministicKey, ensure_true _ valid, bind_ok] at returned
      split at returned
      case isTrue used =>
        obtain ⟨n, same, new, before⟩ := ih (index + 1) returned
        have shift : ∀ m : Nat, index + 1 + BitVec.ofNat 32 m = index + BitVec.ofNat 32 (m + 1) := by
          intro m
          rw [BitVec.add_assoc, Nat.add_comm m 1, BitVec.ofNat_add]
          rfl
        refine ⟨n + 1, shift n ▸ same, new, ?_⟩
        intro m earlier
        cases m with
        | zero => simpa using used
        | succ m => exact shift m ▸ before m (Nat.lt_of_succ_lt_succ earlier)
      case isFalse new =>
        obtain ⟨rfl, rfl⟩ := Prod.mk.inj (Except.ok.inj returned)
        exact ⟨0, by simp, Bool.eq_false_iff.mpr new, fun m earlier => absurd earlier (Nat.not_lt_zero m)⟩

theorem next_account_unique {env : WalletEnv} {store : WalletStore} (pub other : Account) (first : store.NextAccount env pub)
    (second : store.NextAccount env other) : pub = other := by
  obtain ⟨n, rfl, new, before⟩ := first
  obtain ⟨m, rfl, new', before'⟩ := second
  rcases Nat.lt_trichotomy n m with less | rfl | more
  · rw [before' n less] at new
    cases new
  · rfl
  · rw [before m more] at new'
    cases new'

theorem new_account (fuel : Nat) (store : WalletStore) (out : WalletStore × Account) (valid : store.validPassword node.keys = true)
    (returned : Wallet.deterministicInsert node s fuel store = .ok out) :
    store.NextAccount node.keys out.2 ∧ out.1.exists out.2 = true ∧ ∀ account, store.exists account = true →
    out.1.exists account = true := by
  rw [Wallet.deterministicInsert, if_pos valid] at returned
  obtain ⟨⟨grown, key⟩, inserted, rest⟩ := bind_returned returned
  obtain ⟨_, _, rest⟩ := bind_returned rest
  obtain rfl := Except.ok.inj rest
  obtain ⟨⟨index, pub⟩, search, rest⟩ := bind_returned inserted
  obtain ⟨rfl, rfl⟩ := Prod.mk.inj (Except.ok.inj rest)
  have kept : ∀ account, store.exists account = true ∨ account = pub →
      ((store.entryPutRaw pub ⟨marker index, 0⟩).deterministicIndexSet (index + 1)).exists account = true := by
    intro account known
    simp only [WalletStore.exists, WalletStore.deterministicIndexSet, WalletStore.get_put] at known ⊢
    split
    · rfl
    · split
      · rfl
      · next other => exact known.resolve_right other
  exact ⟨unused_key_next fuel _ index pub search, kept pub (Or.inr rfl), fun account known => kept account (Or.inl known)⟩

theorem take_free_some (store : WalletStore) (order rest : List Account) (account : Account)
    (taken : Wallet.takeFree s store order = some (account, rest)) :
    (∃ skipped, order = skipped ++ account :: rest) ∧ store.exists account = true ∧
    ledgerAccountBalance s account = 0 ∧ account ≠ 0 := by
  induction order with
  | nil => cases taken
  | cons first order ih =>
      have next : Wallet.takeFree s store order = some (account, rest) → (∃ skipped, first :: order = skipped ++ account :: rest) ∧
          store.exists account = true ∧ ledgerAccountBalance s account = 0 ∧ account ≠ 0 := by
        intro taken
        obtain ⟨⟨skipped, rfl⟩, usable⟩ := ih taken
        exact ⟨⟨first :: skipped, rfl⟩, usable⟩
      rw [Wallet.takeFree] at taken
      split at taken
      case isTrue => exact next taken
      split at taken
      case isTrue => exact next taken
      split at taken
      case isTrue => exact next taken
      case isFalse known empty nonzero =>
        obtain ⟨rfl, rfl⟩ := Prod.mk.inj (Option.some.inj taken)
        exact ⟨⟨[], rfl⟩, by simpa using known, not_not.mp empty, nonzero⟩

theorem take_free_none (store : WalletStore) (order : List Account) (none : Wallet.takeFree s store order = none) :
    ∀ account ∈ order, store.exists account = true → ledgerAccountBalance s account = 0 → account = 0 := by
  induction order with
  | nil => simp
  | cons first order ih =>
      rw [Wallet.takeFree] at none
      rw [List.forall_mem_cons]
      split at none
      case isTrue absent => exact ⟨fun known => absurd absent (by simp [known]), ih none⟩
      split at none
      case isTrue filled => exact ⟨fun _ empty => absurd empty filled, ih none⟩
      split at none
      case isTrue zero => exact ⟨fun _ _ => zero, ih none⟩
      case isFalse => cases none

structure HandsOut (node : WalletNode) (s : Store) (wallet after : Wallet) (account : Account) : Prop where
  fewer : after.freeAccounts ⊆ wallet.freeAccounts
  kept : ∀ other, wallet.store.exists other = true → after.store.exists other = true
  held : after.store.exists account = true
  taken : account ∉ after.freeAccounts
  origin : account ∈ wallet.freeAccounts ∧ ledgerAccountBalance s account = 0 ∧ ¬ wallet.Spent s ∨
    wallet.Spent s ∧ wallet.store.NextAccount node.keys account

theorem begin_account_hands (fuel : Nat) (order : FreeOrder) (wallet : Wallet) (out : Wallet × Account)
    (valid : wallet.store.validPassword node.keys = true) (returned : wallet.beginAccount node s fuel order = .ok out) :
    HandsOut node s wallet out.1 out.2 := by
  rw [Wallet.beginAccount] at returned
  split at returned
  case h_1 account rest taken =>
    obtain rfl := Except.ok.inj returned
    obtain ⟨⟨skipped, listed⟩, known, empty, nonzero⟩ := take_free_some wallet.store _ rest account taken
    have distinct := order.distinct wallet.freeAccounts
    rw [listed] at distinct
    have free : ∀ other ∈ account :: rest, other ∈ wallet.freeAccounts := fun other member =>
      (order.lists wallet.freeAccounts other).mp (listed ▸ List.mem_append_right skipped member)
    exact {
      fewer := fun other member => free other (List.mem_cons_of_mem account (List.mem_toFinset.mp member))
      kept := fun _ known => known
      held := known
      taken := fun member => (List.nodup_cons.mp (List.nodup_append.mp distinct).2.1).1 (List.mem_toFinset.mp member)
      origin := Or.inl ⟨free account List.mem_cons_self, empty, fun spent => nonzero
        (spent account (free account List.mem_cons_self) known empty)⟩ }
  case h_2 none =>
    obtain ⟨⟨store, account⟩, inserted, rest⟩ := bind_returned returned
    obtain rfl := Except.ok.inj rest
    obtain ⟨next, held, kept⟩ := new_account fuel wallet.store (store, account) valid inserted
    have spent : wallet.Spent s := fun other free =>
      take_free_none wallet.store _ none other ((order.lists wallet.freeAccounts other).mpr free)
    exact {
      fewer := Finset.empty_subset _
      kept := kept
      held := held
      taken := Finset.notMem_empty account
      origin := Or.inr ⟨spent, next⟩ }

end Steps

section Requests

variable {α β : Type}

theorem refuse_some (message : String) (a : α) (next : α → Checks β) : (refuseUnless message (some a) >>= next) = next a := rfl

theorem refuse_passed {message : String} {checked : Option α} {next : α → Checks β} {result : β}
    (passed : (refuseUnless message checked >>= next).run = .ok (.ok result)) :
    ∃ a, checked = some a ∧ (next a).run = .ok (.ok result) := by
  cases checked with
  | none => cases passed
  | some a => exact ⟨a, rfl, passed⟩

theorem called_passed {x : Except Fault α} {next : α → Checks β} {result : β}
    (passed : ((liftM x : Checks α) >>= next).run = .ok (.ok result)) : ∃ a, x = .ok a ∧ (next a).run = .ok (.ok result) := by
  cases x with
  | error fault => cases passed
  | ok a => exact ⟨a, rfl, passed⟩

theorem last_passed {message : String} {p : Prop} [Decidable p] {result other : α}
    (passed : (refuseUnless message (if p then some result else none)).run = .ok (.ok other)) : p ∧ result = other := by
  split at passed
  case isTrue holds => exact ⟨holds, Except.ok.inj (Except.ok.inj passed)⟩
  case isFalse => cases passed

variable {texts : Texts} {node : WalletNode} {items : Table Key Wallet} {s : Store} {request : Ptree} {out : PaymentOutcome}

theorem begin_checks_iff (id : Key) (wallet : Wallet) : (beginChecks texts node items request).run = .ok (.ok (id, wallet)) ↔
    ∃ walletText, request.get "wallet" = some walletText ∧ UInt256Union.decodeHex texts walletText = some id ∧
    items.get id = some wallet ∧
      wallet.store.validPassword node.keys = true := by
  constructor
  · intro checked
    obtain ⟨walletText, given, checked⟩ := refuse_passed checked
    obtain ⟨number, decoded, checked⟩ := refuse_passed checked
    obtain ⟨found, present, checked⟩ := refuse_passed checked
    obtain ⟨valid, same⟩ := last_passed checked
    obtain ⟨rfl, rfl⟩ := Prod.mk.inj same
    exact ⟨walletText, given, decoded, present, valid⟩
  · rintro ⟨walletText, given, decoded, present, valid⟩
    rw [beginChecks, requiredText, given, refuse_some, decoded, refuse_some, present, refuse_some, if_pos valid]
    rfl

theorem payment_begin_cases (fuel : Nat) (order : FreeOrder) (returned : paymentBegin texts node items s request fuel order = .ok out) :
    (∀ id wallet, (beginChecks texts node items request).run ≠ .ok (.ok (id, wallet))) ∧ out.items = items ∧ out.account = none ∨
    ∃ id wallet after account, (beginChecks texts node items request).run = .ok (.ok (id, wallet)) ∧ items.get id = some wallet ∧
      HandsOut node s wallet after account ∧ out.items = items.put id after ∧
      out.account = if account ≠ 0 then some (id, account) else none := by
  obtain ⟨checks, checked, rest⟩ := bind_returned returned
  cases checks with
  | error message =>
      obtain rfl := Except.ok.inj rest
      refine Or.inl ⟨?_, rfl, rfl⟩
      intro id wallet passed
      cases checked.symm.trans passed
  | ok found =>
      obtain ⟨id, wallet⟩ := found
      obtain ⟨_, _, _, present, valid⟩ := (begin_checks_iff id wallet).mp checked
      obtain ⟨⟨after, account⟩, begun, rest⟩ := bind_returned rest
      have hands := begin_account_hands fuel order wallet (after, account) valid begun
      refine Or.inr ⟨id, wallet, after, account, checked, present, hands, ?_⟩
      by_cases given : account ≠ 0
      · simp only [if_pos given] at rest ⊢
        obtain rfl := Except.ok.inj rest
        exact ⟨rfl, rfl⟩
      · simp only [if_neg given] at rest ⊢
        obtain rfl := Except.ok.inj rest
        exact ⟨rfl, rfl⟩

theorem payment_end_cases (returned : paymentEnd texts items s request = .ok out) :
    out.items = items ∧ out.account = none ∨ ∃ id wallet account, items.get id = some wallet ∧
      out.items = items.put id { wallet with freeAccounts := insert account wallet.freeAccounts } ∧
      out.account = some (id, account) := by
  obtain ⟨checks, checked, rest⟩ := bind_returned returned
  cases checks with
  | error message =>
      obtain rfl := Except.ok.inj rest
      exact Or.inl ⟨rfl, rfl⟩
  | ok found =>
      obtain ⟨_, _, checked⟩ := refuse_passed checked
      obtain ⟨_, _, checked⟩ := refuse_passed checked
      obtain ⟨id, _, checked⟩ := refuse_passed checked
      obtain ⟨wallet, present, checked⟩ := refuse_passed checked
      obtain ⟨_, _, checked⟩ := called_passed checked
      obtain ⟨account, _, checked⟩ := refuse_passed checked
      obtain ⟨_, _, checked⟩ := refuse_passed checked
      obtain ⟨_, rfl⟩ := last_passed checked
      obtain rfl := Except.ok.inj rest
      exact Or.inr ⟨id, wallet, account, present, rfl, rfl⟩

end Requests

section Runs

variable {texts : Texts} {node : WalletNode} {s t : Paying} {action : PayAction}

def Paying.leases (s : Paying) : List (Lease (Key × Account)) := s.log.map PaymentEvent.lease

structure Leased (s : Paying) : Prop where
  exclusive : Lease.Exclusive s.leases
  kept : ∀ id account, Lease.Held s.leases (id, account) → ∃ wallet, s.items.get id = some wallet ∧ wallet.store.exists account = true ∧
    account ∉ wallet.freeAccounts

theorem leased_begun (leased : Leased s) (id : Key) (wallet after : Wallet) (account : Account) (balance : Amount)
    (present : s.items.get id = some wallet) (hands : HandsOut node s.ledger wallet after account) :
    Leased ⟨s.items.put id after, s.ledger, s.log ++ if account ≠ 0 then [.begun id account balance] else []⟩ := by
  have out : ¬ Lease.Held s.leases (id, account) := by
    intro held
    obtain ⟨known, same, exist, taken⟩ := leased.kept id account held
    obtain rfl := Option.some.inj (same.symm.trans present)
    rcases hands.origin with ⟨free, _⟩ | ⟨_, n, _, new, _⟩
    · exact taken free
    · rw [exist] at new
      cases new
  have kept : ∀ id' account', Lease.Held s.leases (id', account') → ∃ wallet, (s.items.put id after).get id' = some wallet ∧
      wallet.store.exists account' = true ∧ account' ∉ wallet.freeAccounts := by
    intro id' account' held
    obtain ⟨known, same, exist, taken⟩ := leased.kept id' account' held
    by_cases here : id' = id
    · subst here
      obtain rfl := Option.some.inj (same.symm.trans present)
      exact ⟨after, Table.get_put_self _ _ _, hands.kept account' exist, fun member => taken (hands.fewer member)⟩
    · exact ⟨known, (Table.get_put_ne _ _ _ _ here).trans same, exist, taken⟩
  split
  case isFalse =>
    rw [List.append_nil]
    exact ⟨leased.exclusive, kept⟩
  case isTrue =>
    have history : Paying.leases ⟨s.items.put id after, s.ledger, s.log ++ [.begun id account balance]⟩ =
      s.leases ++ [.out (id, account)] := by
      simp [Paying.leases, PaymentEvent.lease]
    constructor
    · rw [history, Lease.exclusive_out]
      exact ⟨leased.exclusive, out⟩
    · intro id' account' held
      rw [history, Lease.held_out] at held
      rcases held with same | held
      · obtain ⟨rfl, rfl⟩ := Prod.mk.inj same
        exact ⟨after, Table.get_put_self _ _ _, hands.held, hands.taken⟩
      · exact kept id' account' held

theorem leased_ended (leased : Leased s) (id : Key) (wallet : Wallet) (account : Account) (present : s.items.get id = some wallet) :
    Leased ⟨s.items.put id { wallet with freeAccounts := insert account wallet.freeAccounts }, s.ledger,
    s.log ++ [.ended id account]⟩ := by
  have history : Paying.leases ⟨s.items.put id { wallet with freeAccounts := insert account wallet.freeAccounts }, s.ledger,
      s.log ++ [.ended id account]⟩ = s.leases ++ [.back (id, account)] := by
    simp [Paying.leases, PaymentEvent.lease]
  constructor
  · rw [history, Lease.exclusive_back]
    exact leased.exclusive
  · intro id' account' held
    rw [history, Lease.held_back] at held
    obtain ⟨known, same, exist, taken⟩ := leased.kept id' account' held.2
    by_cases here : id' = id
    · subst here
      obtain rfl := Option.some.inj (same.symm.trans present)
      have other : account' ≠ account := fun same => held.1 (by rw [same])
      exact ⟨_, Table.get_put_self _ _ _, exist, by simp [other, taken]⟩
    · exact ⟨known, (Table.get_put_ne _ _ _ _ here).trans same, exist, taken⟩

theorem begin_step_cases {fuel : Nat} {order : FreeOrder} {request : Ptree}
    (taken : PayStep texts node s (.begin fuel order request) t) :
    (∀ id wallet, (beginChecks texts node s.items request).run ≠ .ok (.ok (id, wallet))) ∧ t = s ∨
    ∃ id wallet after account, (beginChecks texts node s.items request).run = .ok (.ok (id, wallet)) ∧ s.items.get id = some wallet ∧
      HandsOut node s.ledger wallet after account ∧ t = ⟨s.items.put id after, s.ledger,
        s.log ++ if account ≠ 0 then [.begun id account (ledgerAccountBalance s.ledger account)] else []⟩ := by
  cases taken with
  | begin _ _ _ out returned =>
      rcases payment_begin_cases fuel order returned with ⟨refused, same, none⟩ | ⟨id, wallet, after, account, checked, present,
        hands, put, given⟩
      · left
        rw [same, none]
        simp [refused]
      · right
        refine ⟨id, wallet, after, account, checked, present, hands, ?_⟩
        rw [put, given]
        split <;> rfl

theorem leased_step (leased : Leased s) (taken : PayStep texts node s action t) : Leased t := by
  cases action with
  | begin fuel order request =>
      rcases begin_step_cases taken with ⟨_, rfl⟩ | ⟨id, wallet, after, account, _, present, hands, rfl⟩
      · exact leased
      · exact leased_begun leased id wallet after account _ present hands
  | finish request =>
      cases taken with
      | finish _ out returned =>
          rcases payment_end_cases returned with ⟨same, none⟩ | ⟨id, wallet, account, present, put, given⟩
          · rw [same, none, Option.toList_none, List.map_nil, List.append_nil]
            exact leased
          · rw [put, given]
            exact leased_ended leased id wallet account present
  | change ledger =>
      cases taken
      exact ⟨leased.exclusive, leased.kept⟩

theorem log_grows (taken : PayStep texts node s action t) : ∃ events, t.log = s.log ++ events := by
  cases taken with
  | begin _ _ _ _ _ => exact ⟨_, rfl⟩
  | finish _ _ _ => exact ⟨_, rfl⟩
  | change => exact ⟨[], (List.append_nil _).symm⟩

def Vacant (log : List PaymentEvent) : Prop := ∀ wallet account balance, PaymentEvent.begun wallet account balance ∈ log → balance = 0

theorem vacant_step (vacant : Vacant s.log) (unused : s.Unused texts node action) (taken : PayStep texts node s action t) :
    Vacant t.log := by
  cases action with
  | begin fuel order request =>
      rcases begin_step_cases taken with ⟨_, rfl⟩ | ⟨id, wallet, after, account, checked, present, hands, rfl⟩
      · exact vacant
      intro wallet' account' balance member
      rcases List.mem_append.mp member with earlier | last
      · exact vacant wallet' account' balance earlier
      split at last
      case isFalse => cases last
      case isTrue given =>
        obtain ⟨_, _, rfl⟩ := PaymentEvent.begun.inj (List.mem_singleton.mp last)
        rcases hands.origin with ⟨_, empty, _⟩ | ⟨spent, next⟩
        · exact empty
        · obtain ⟨walletText, named, decoded, _, valid⟩ := (begin_checks_iff id wallet).mp checked
          exact unused walletText id wallet named decoded present valid spent account given next
  | finish request =>
      cases taken with
      | finish _ out returned =>
          intro wallet account balance member
          rcases List.mem_append.mp member with earlier | last
          · exact vacant wallet account balance earlier
          · obtain ⟨_, _, other⟩ := List.mem_map.mp last
            cases other
  | change ledger =>
      cases taken
      exact vacant

theorem unused_of_vacant (vacant : Vacant t.log) (taken : PayStep texts node s action t) : s.Unused texts node action := by
  cases action with
  | begin fuel order request =>
      intro walletText id wallet named decoded present valid spent pub nonzero next
      have checked : (beginChecks texts node s.items request).run = .ok (.ok (id, wallet)) :=
        (begin_checks_iff id wallet).mpr ⟨walletText, named, decoded, present, valid⟩
      rcases begin_step_cases taken with ⟨refused, _⟩ | ⟨id', wallet', after, account, checked', _, hands, rfl⟩
      · exact absurd checked (refused id wallet)
      obtain ⟨rfl, rfl⟩ := Prod.mk.inj (Except.ok.inj (Except.ok.inj (checked.symm.trans checked')))
      rcases hands.origin with ⟨_, _, unspent⟩ | ⟨_, next'⟩
      · exact absurd spent unspent
      obtain rfl := next_account_unique pub account next next'
      rw [if_pos nonzero] at vacant
      exact vacant id pub _ (List.mem_append_right _ (List.mem_singleton_self _))
  | finish request => trivial
  | change ledger => trivial

theorem leased_start (items : Table Key Wallet) (ledger : Store) : Leased ⟨items, ledger, []⟩ :=
  ⟨Lease.exclusive_nil, fun id account held => absurd held (Lease.held_nil (id, account))⟩

end Runs

theorem payment_accounts_iff (texts : Texts) (node : WalletNode) (items : Table Key Wallet) (request : Ptree)
    (ledger : Store) (t : Paying) (path : Trail (PayStep texts node) (fun _ _ => True)
    ⟨(paymentInit texts node items request).2, ledger, []⟩ t) :
    Orderly t.log ↔ Trail (PayStep texts node) (Paying.Unused texts node) ⟨(paymentInit texts node items request).2, ledger, []⟩ t := by
  constructor
  · intro orderly
    have vacant : Vacant t.log := orderly.empty
    clear orderly
    induction path with
    | start => exact .start
    | step s action t path _ taken ih =>
        obtain ⟨events, grown⟩ := log_grows taken
        have before : Vacant s.log := fun wallet account balance member =>
          vacant wallet account balance (grown ▸ List.mem_append_left events member)
        exact .step s action t (ih before) (unused_of_vacant vacant taken) taken
  · intro guarded
    have leased := trail_invariant _ _ Leased (leased_start _ ledger) (fun _ _ _ leased _ taken => leased_step leased taken) path
    have vacant : Vacant t.log := trail_invariant _ _ (fun s => Vacant s.log) (fun _ _ _ member => absurd member List.not_mem_nil)
      (fun _ _ _ vacant unused taken => vacant_step vacant unused taken) guarded
    exact ⟨leased.exclusive, vacant⟩

def sortedOrder : FreeOrder where
  list := fun free => free.sort (· ≤ ·)
  distinct := fun free => free.sort_nodup _
  lists := fun free _ => free.mem_sort _

def emptyItems : Table Key Wallet := Table.empty.put 1 ⟨⟨.empty, Fan.start 0 [], Fan.start 0 []⟩, ∅⟩

def initRequest : Ptree := [("wallet", "1".toList)]

def endRequest : Ptree := [("wallet", "1".toList), ("account", encodeAccount zeroTexts (genesisAccount .test))]

theorem fresh_balance (account : Account) : ledgerAccountBalance Store.fresh account = 0 := rfl

theorem begin_given {texts : Texts} {node : WalletNode} (s : Paying) (fuel : Nat) (order : FreeOrder) (request : Ptree)
    (out : PaymentOutcome) (id : Key) (account : Account)
    (returned : paymentBegin texts node s.items s.ledger request fuel order = .ok out) (given : out.account = some (id, account)) :
    PayStep texts node s (.begin fuel order request)
      ⟨out.items, s.ledger, s.log ++ [.begun id account (ledgerAccountBalance s.ledger account)]⟩ := by
  have step := PayStep.begin s fuel order request out returned
  rw [given] at step
  exact step

theorem end_taken {texts : Texts} {node : WalletNode} (s : Paying) (request : Ptree) (out : PaymentOutcome) (id : Key)
    (account : Account) (returned : paymentEnd texts s.items s.ledger request = .ok out) (taken : out.account = some (id, account)) :
    PayStep texts node s (.finish request) ⟨out.items, s.ledger, s.log ++ [.ended id account]⟩ := by
  have step := @PayStep.finish texts node s request out returned
  rw [taken] at step
  exact step

theorem fresh_unused (s : Paying) (fresh : s.ledger = Store.fresh) (action : PayAction) : s.Unused zeroTexts sampleNode action := by
  cases action with
  | begin fuel order request =>
      intro walletText id wallet _ _ _ _ _ pub _ _
      rw [fresh, fresh_balance]
  | finish request => trivial
  | change ledger => trivial

def againLog : List PaymentEvent :=
  [.begun 1 (genesisAccount .test) 0, .ended 1 (genesisAccount .test), .begun 1 (genesisAccount .test) 0]

theorem again_trail {items : Table Key Wallet} {first second third : PaymentOutcome}
    (begun : paymentBegin zeroTexts sampleNode items Store.fresh initRequest 1 sortedOrder = .ok first)
    (ended : paymentEnd zeroTexts first.items Store.fresh endRequest = .ok second)
    (again : paymentBegin zeroTexts sampleNode second.items Store.fresh initRequest 1 sortedOrder = .ok third)
    (one : first.account = some (1, genesisAccount .test)) (two : second.account = some (1, genesisAccount .test))
    (three : third.account = some (1, genesisAccount .test)) (meets : Paying → PayAction → Prop)
    (met : ∀ s action, s.ledger = Store.fresh → meets s action) :
    Trail (PayStep zeroTexts sampleNode) meets ⟨items, Store.fresh, []⟩ ⟨third.items, Store.fresh, againLog⟩ := by
  have given := begin_given ⟨items, Store.fresh, []⟩ 1 sortedOrder initRequest first 1 _ begun one
  have path := Trail.step _ _ _ .start (met _ _ rfl) given
  rw [fresh_balance] at path
  have taken : PayStep zeroTexts sampleNode _ _ _ :=
    end_taken (.mk first.items Store.fresh [.begun 1 (genesisAccount .test) 0]) endRequest second 1 _ ended two
  have path := Trail.step _ _ _ path (met _ _ rfl) taken
  have given := begin_given (.mk second.items Store.fresh [.begun 1 (genesisAccount .test) 0, .ended 1 (genesisAccount .test)])
    1 sortedOrder initRequest third 1 _ again three
  have path := Trail.step _ _ _ path (met _ _ rfl) given
  rw [fresh_balance] at path
  exact path

theorem payment_accounts_sample : ∃ t, Trail (PayStep zeroTexts sampleNode) (fun _ _ => True)
    ⟨(paymentInit zeroTexts sampleNode emptyItems initRequest).2, Store.fresh, []⟩ t ∧ t.log = againLog ∧ Orderly t.log := by
  have computed : (do
      let first ← paymentBegin zeroTexts sampleNode (paymentInit zeroTexts sampleNode emptyItems initRequest).2 Store.fresh
        initRequest 1 sortedOrder
      let second ← paymentEnd zeroTexts first.items Store.fresh endRequest
      let third ← paymentBegin zeroTexts sampleNode second.items Store.fresh initRequest 1 sortedOrder
      .ok (first.account, second.account, third.account)) =
      .ok (some (1, genesisAccount .test), some (1, genesisAccount .test), some (1, genesisAccount .test)) := by
    decide +kernel
  obtain ⟨first, begun, rest⟩ := bind_returned computed
  obtain ⟨second, ended, rest⟩ := bind_returned rest
  obtain ⟨third, again, rest⟩ := bind_returned rest
  obtain ⟨one, rest⟩ := Prod.mk.inj (Except.ok.inj rest)
  obtain ⟨two, three⟩ := Prod.mk.inj rest
  have free := again_trail begun ended again one two three (fun _ _ => True) fun _ _ _ => trivial
  have guarded := again_trail begun ended again one two three (Paying.Unused zeroTexts sampleNode) fun s action fresh =>
    fresh_unused s fresh action
  exact ⟨_, free, rfl, (payment_accounts_iff zeroTexts sampleNode emptyItems initRequest Store.fresh _ free).mpr guarded⟩

-- The seed has been used before: its first account has a balance, and is handed out.
theorem seeded_account_begun : ∃ t, Trail (PayStep zeroTexts sampleNode) (fun _ _ => True)
    ⟨(paymentInit zeroTexts sampleNode emptyItems initRequest).2, sendLedger, []⟩ t ∧ t.log = [.begun 1 (genesisAccount .test) 5] ∧
    ¬ Orderly t.log := by
  have computed :
    (paymentBegin zeroTexts sampleNode (paymentInit zeroTexts sampleNode emptyItems initRequest).2 sendLedger initRequest 1
      sortedOrder).map PaymentOutcome.account = .ok (some (1, genesisAccount .test)) := by
    decide +kernel
  obtain ⟨out, begun, account⟩ := map_returned computed
  have balance : ledgerAccountBalance sendLedger (genesisAccount .test) = 5 := by decide +kernel
  have step := begin_given ⟨_, sendLedger, []⟩ 1 sortedOrder initRequest out 1 _ begun account
  rw [balance] at step
  refine ⟨_, .step _ _ _ .start trivial step, rfl, ?_⟩
  intro orderly
  have zero := orderly.empty 1 _ 5 (List.mem_singleton_self _)
  cases zero

end Rai
