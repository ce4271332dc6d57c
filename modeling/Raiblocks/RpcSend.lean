import Raiblocks.AccountTexts
import Raiblocks.Amounts
import Raiblocks.DistributedWork
import Raiblocks.WalletActions
import Raiblocks.WalletSpec

set_option autoImplicit false

namespace Rai

open Kit

abbrev Checks := ExceptT String (Except Fault)

def refuseUnless {α : Type} (message : String) : Option α → Checks α
  | some a => ExceptT.mk (.ok (.ok a))
  | none => ExceptT.mk (.ok (.error message))

-- A member that is missing throws, and `process_request` answers.
def requiredText (request : Ptree) (name : String) : Checks Text := refuseUnless "Unable to parse JSON" (request.get name)

structure SendCall where
  wallet : Key
  existing : WalletStore
  source : Account
  destination : Account
  amount : Amount

structure SendOutcome where
  responses : List Ptree
  items : Table Key WalletStore
  stored : List Work
  queued : List (SendCall × Bool)

section Model

variable (texts : Texts) (node : WalletNode) (enableControl : Bool) (items : Table Key WalletStore) (s : Store) (request : Ptree)

def sendChecks : Checks SendCall :=
  if enableControl then do
    let walletText ← requiredText request "wallet"
    let wallet ← refuseUnless "Bad wallet number" (UInt256Union.decodeHex texts walletText)
    let existing ← refuseUnless "Wallet not found" (items.get wallet)
    let sourceText ← requiredText request "source"
    let source ← refuseUnless "Bad source account" (← decodeAccount texts sourceText)
    let destinationText ← requiredText request "destination"
    let destination ← refuseUnless "Bad destination account" (← decodeAccount texts destinationText)
    let amountText ← requiredText request "amount"
    let amount ← refuseUnless "Bad amount format" (
      match UInt128Union.decodeDec texts 0 amountText with
      | (false, amount) => some amount
      | (true, _) => none)
    pure ⟨wallet, existing, source, destination, amount⟩
  else refuseUnless "RPC control is disabled" none

def requestWork : Bool × Work :=
  match request.get "work" with
  | some workText => fromStringHexInto texts 0 workText
  | none => (false, 0)

-- Work is checked against the head of the account, which is zero where there is none.
def putWork (call : SendCall) (work : Work) : Except Fault (List Ptree × Table Key WalletStore × List Work) :=
  if work ≠ 0 then
    if workRejected node.env (((s.accounts.get call.source).map AccountInfo.head).getD 0) work then
      .ok ([errorResponse "Invalid work"], items, [])
    else do
      let store ← call.existing.workPut call.source work
      .ok ([], items.put call.wallet store, [work])
  else .ok ([], items, [])

-- The rest of the handler. An error is answered and the handler goes on.
def sendChecked (call : SendCall) : Except Fault SendOutcome := do
  let (workError, work) := requestWork texts request
  let bad := if workError then [errorResponse "Bad work"] else []
  let missing := if (s.accounts.get call.source).isNone then [errorResponse "Account not found"] else []
  let (invalid, items, stored) ← putWork node items s call work
  let balance := ledgerAccountBalance s call.source
  if call.amount ≤ balance then .ok ⟨bad ++ missing ++ invalid, items, stored, [(call, work = 0)]⟩
  else .ok ⟨bad ++ missing ++ invalid ++ [errorResponse "Insufficient balance"], items, stored, []⟩

def rpcSend : Except Fault SendOutcome := do
  match ← (sendChecks texts enableControl items request).run with
  | .error message => .ok ⟨[errorResponse message], items, [], []⟩
  | .ok call => sendChecked texts node items s request call

def blockResponse (block : Option Block) : Ptree :=
  Ptree.put [] "block" (UInt256Union.encodeHex texts ((block.map (Block.hash node.env)).getD 0))

-- The send is taken from the queue later, with the ledger and the wallet of that time.
def answered (later : Store) (wallet : WalletStore) : Except Fault SendOutcome := do
  let outcome ← rpcSend texts node enableControl items s request
  let blocks ← outcome.queued.mapM fun queued =>
    sendAction node later wallet queued.2 queued.1.source queued.1.destination queued.1.amount
  .ok { outcome with responses := outcome.responses ++ blocks.map (blockResponse texts node) }

def Clean (outcome : SendOutcome) : Prop := outcome.responses.length = 1 ∧
  ((∃ message, errorResponse message ∈ outcome.responses) → outcome.queued = [] ∧ outcome.stored = [] ∧ outcome.items = items)

def FailsCleanly (later : Store) (wallet : WalletStore) : Prop :=
  ∃ outcome, answered texts node enableControl items s request later wallet = .ok outcome ∧ Clean items outcome

end Model

section Stops

variable {α β : Type}

def Stops (checks : Checks α) : Prop := ∃ fault, checks.run = .error fault

theorem refuse_stops_iff (message : String) (checked : Option α) (next : α → Checks β) :
    Stops (refuseUnless message checked >>= next) ↔ ∃ a, checked = some a ∧ Stops (next a) := by
  cases checked with
  | none =>
      simp only [reduceCtorEq, false_and, exists_false, iff_false]
      rintro ⟨fault, stopped⟩
      cases stopped
  | some a =>
      simp only [Option.some.injEq, exists_eq_left']
      rfl

theorem called_stops_iff (x : Except Fault α) (next : α → Checks β) :
    Stops ((liftM x : Checks α) >>= next) ↔ (∃ fault, x = .error fault) ∨ ∃ a, x = .ok a ∧ Stops (next a) := by
  cases x with
  | error fault =>
      simp only [reduceCtorEq, false_and, exists_false, or_false]
      exact ⟨fun _ => ⟨fault, rfl⟩, fun _ => ⟨fault, rfl⟩⟩
  | ok a =>
      simp only [reduceCtorEq, exists_false, false_or, Except.ok.injEq, exists_eq_left']
      rfl

theorem returned_some_iff (x : Except Fault (Option α)) (p : α → Prop) :
    (∃ out, x = .ok out ∧ ∃ a, out = some a ∧ p a) ↔ ∃ a, x = .ok (some a) ∧ p a := by
  constructor
  · rintro ⟨_, returned, a, rfl, holds⟩
    exact ⟨a, returned, holds⟩
  · rintro ⟨a, returned, holds⟩
    exact ⟨some a, returned, a, rfl, holds⟩

theorem refuse_last (message : String) (checked : Option α) : ¬ Stops (refuseUnless message checked) := by
  cases checked <;> simp [Stops, refuseUnless]

theorem pure_last (a : α) : ¬ Stops (pure a : Checks α) := by
  rintro ⟨fault, stopped⟩
  cases stopped

end Stops

section Answers

variable (texts : Texts) (node : WalletNode) (enableControl : Bool) (items : Table Key WalletStore) (s : Store) (request : Ptree)
  (later : Store) (wallet : WalletStore)

def ChecksStick : Prop := enableControl = true ∧ ∃ walletText, request.get "wallet" = some walletText ∧
  ∃ number, UInt256Union.decodeHex texts walletText = some number ∧ ∃ existing, items.get number = some existing ∧
  ∃ sourceText, request.get "source" = some sourceText ∧ (accountSticks sourceText = true ∨
    ∃ source, decodeAccount texts sourceText = .ok (some source) ∧
      ∃ destinationText, request.get "destination" = some destinationText ∧ accountSticks destinationText = true)

theorem checks_stop_iff : Stops (sendChecks texts enableControl items request) ↔ ChecksStick texts enableControl items request := by
  unfold sendChecks ChecksStick requiredText
  cases enableControl with
  | false =>
      simp only [Bool.false_eq_true, if_false, false_and, iff_false]
      exact refuse_last _ _
  | true =>
      simp only [if_true, refuse_stops_iff, called_stops_iff, decode_account_stops_iff, pure_last, and_false, exists_false,
        or_false, true_and, returned_some_iff]

-- What the handler does right, for a request that passes its checks: the later send may not meet an entry without its key.
structure Proper (call : SendCall) : Prop where
  work : (requestWork texts request).1 = false
  account : (s.accounts.get call.source).isSome = true
  kept : (requestWork texts request).2 ≠ 0 → call.amount ≤ ledgerAccountBalance s call.source ∧
    workRejected node.env (((s.accounts.get call.source).map AccountInfo.head).getD 0) (requestWork texts request).2 = false ∧
    (call.existing.entryGetRaw call.source).key ≠ 0
  later : call.amount ≤ ledgerAccountBalance s call.source → wallet.validPassword node.keys = true → wallet.exists call.source = true →
    ledgerAccountBalance later call.source ≠ 0 → call.amount ≤ ledgerAccountBalance later call.source →
    wallet.reveal node.keys call.source ≠ none

theorem send_action_returns_iff (generateWork : Bool) (source account : Account) (amount : Amount) :
    (∃ block, sendAction node later wallet generateWork source account amount = .ok block) ↔
      (wallet.validPassword node.keys = true → wallet.exists source = true → ledgerAccountBalance later source ≠ 0 →
        amount ≤ ledgerAccountBalance later source → wallet.reveal node.keys source ≠ none) := by
  rw [sendAction]
  by_cases held : wallet.validPassword node.keys = true ∧ wallet.exists source = true
  · rw [if_pos held]
    by_cases enough : ledgerAccountBalance later source ≠ 0 ∧ amount ≤ ledgerAccountBalance later source
    · have present : ∃ info, later.accounts.get source = some info := by
        cases found : later.accounts.get source with
        | some info => exact ⟨info, rfl⟩
        | none =>
            rw [ledgerAccountBalance, found] at enough
            exact absurd rfl enough.1
      obtain ⟨info, found⟩ := present
      simp only [if_pos enough, found, require_some, bind_ok, WalletStore.fetch_valid wallet held.1]
      cases wallet.reveal node.keys source with
      | none =>
          refine ⟨?_, fun fine => absurd rfl (fine held.1 held.2 enough.1 enough.2)⟩
          rintro ⟨block, returned⟩
          cases returned
      | some prv => simp
    · rw [if_neg enough]
      exact ⟨fun _ _ _ some much => absurd ⟨some, much⟩ enough, fun _ => ⟨none, rfl⟩⟩
  · rw [if_neg held]
    exact ⟨fun _ valid present => absurd ⟨valid, present⟩ held, fun _ => ⟨none, rfl⟩⟩

def earlyErrors (call : SendCall) : List Ptree :=
  (if (requestWork texts request).1 then [errorResponse "Bad work"] else []) ++
    if (s.accounts.get call.source).isNone then [errorResponse "Account not found"] else []

theorem early_errors_none (call : SendCall) :
    earlyErrors texts s request call = [] ↔ (requestWork texts request).1 = false ∧ (s.accounts.get call.source).isSome = true := by
  unfold earlyErrors
  cases (requestWork texts request).1 <;> cases s.accounts.get call.source <;> simp

def closing (call : SendCall) (invalid : List Ptree) (kept : Table Key WalletStore) (stored : List Work) : Except Fault SendOutcome :=
  if call.amount ≤ ledgerAccountBalance s call.source then do
    let block ← sendAction node later wallet ((requestWork texts request).2 = 0) call.source call.destination call.amount
    .ok ⟨earlyErrors texts s request call ++ invalid ++ [blockResponse texts node block], kept, stored,
      [(call, (requestWork texts request).2 = 0)]⟩
  else .ok ⟨earlyErrors texts s request call ++ invalid ++ [errorResponse "Insufficient balance"], kept, stored, []⟩

theorem answered_checked (call : SendCall) (checked : (sendChecks texts enableControl items request).run = .ok (.ok call)) :
    answered texts node enableControl items s request later wallet = (do
      let (invalid, kept, stored) ← putWork node items s call (requestWork texts request).2
      closing texts node s request later wallet call invalid kept stored) := by
  rw [answered, rpcSend, checked, bind_ok]
  dsimp only
  unfold sendChecked closing earlyErrors
  rcases requestWork texts request with ⟨workError, work⟩
  dsimp only
  cases putWork node items s call work with
  | error fault => rfl
  | ok out =>
      obtain ⟨invalid, kept, stored⟩ := out
      simp only [bind_ok]
      split
      case isTrue => simp
      case isFalse => simp

theorem error_not_block (message : String) (block : Option Block) : errorResponse message ≠ blockResponse texts node block := by
  simp [errorResponse, blockResponse, Ptree.put]

theorem closing_clean_iff (call : SendCall) (invalid : List Ptree) (kept : Table Key WalletStore) (stored : List Work) :
    (∃ outcome, closing texts node s request later wallet call invalid kept stored = .ok outcome ∧ Clean items outcome) ↔
      earlyErrors texts s request call = [] ∧ invalid = [] ∧ (call.amount ≤ ledgerAccountBalance s call.source →
        ∃ block, sendAction node later wallet ((requestWork texts request).2 = 0) call.source call.destination call.amount =
        .ok block) ∧
      (¬ call.amount ≤ ledgerAccountBalance s call.source → stored = [] ∧ kept = items) := by
  have single : ∀ last : Ptree, (earlyErrors texts s request call ++ invalid ++ [last]).length = 1 ↔
      earlyErrors texts s request call = [] ∧ invalid = [] := by
    intro last
    rw [List.length_append, List.length_append, List.length_singleton, ← List.length_eq_zero_iff, ← List.length_eq_zero_iff]
    omega
  unfold closing Clean
  by_cases enough : call.amount ≤ ledgerAccountBalance s call.source
  · simp only [if_pos enough]
    cases sendAction node later wallet ((requestWork texts request).2 = 0) call.source call.destination call.amount with
    | error fault => simp [enough]
    | ok block =>
        simp only [bind_ok, Except.ok.injEq, exists_eq_left', single, enough, not_true_eq_false, false_implies, and_true,
          true_implies, exists_eq']
        refine and_iff_left_of_imp ?_
        rintro ⟨none, valid⟩ ⟨message, member⟩
        rw [none, valid] at member
        exact absurd (List.mem_singleton.mp member) (error_not_block texts node message block)
  · simp only [if_neg enough]
    simp only [Except.ok.injEq, exists_eq_left', single, enough, false_implies, not_false_eq_true, true_implies, true_and, and_assoc]
    refine and_congr_right fun none => and_congr_right fun valid => ?_
    refine imp_iff_right ⟨"Insufficient balance", ?_⟩
    simp

theorem put_work_stored (call : SendCall) (work : Work) (some : work ≠ 0)
    (valid : workRejected node.env (((s.accounts.get call.source).map AccountInfo.head).getD 0) work = false) :
    putWork node items s call work = (do
      ensure ((call.existing.entryGetRaw call.source).key ≠ 0)
      .ok ([], items.put call.wallet (call.existing.entryPutRaw call.source
        { call.existing.entryGetRaw call.source with work := work }), [work])) := by
  rw [putWork, if_pos some, valid, if_neg Bool.false_ne_true, WalletStore.workPut]
  by_cases held : (call.existing.entryGetRaw call.source).key ≠ 0
  · rw [ensure_true _ held, bind_ok, bind_ok, bind_ok]
  · rw [ensure, if_neg held]
    rfl

theorem checked_clean_iff (call : SendCall) :
    (∃ outcome, (do
      let (invalid, kept, stored) ← putWork node items s call (requestWork texts request).2
      closing texts node s request later wallet call invalid kept stored) = .ok outcome ∧ Clean items outcome) ↔
      Proper texts node s request later wallet call := by
  have early := early_errors_none texts s request call
  have sent := send_action_returns_iff node later wallet ((requestWork texts request).2 = 0) call.source call.destination call.amount
  by_cases none : (requestWork texts request).2 = 0
  · have plain : putWork node items s call (requestWork texts request).2 = .ok ([], items, []) := by
      rw [putWork, if_neg (not_not.mpr none)]
    rw [plain, bind_ok, closing_clean_iff, early, sent]
    constructor
    · rintro ⟨⟨work, account⟩, _, later, _⟩
      exact ⟨work, account, fun some => absurd none some, later⟩
    · rintro ⟨work, account, _, later⟩
      exact ⟨⟨work, account⟩, rfl, later, fun _ => ⟨rfl, rfl⟩⟩
  cases valid : workRejected node.env (((s.accounts.get call.source).map AccountInfo.head).getD 0) (requestWork texts request).2 with
  | true =>
      have invalid : putWork node items s call (requestWork texts request).2 = .ok ([errorResponse "Invalid work"], items, []) := by
        rw [putWork, if_pos none, valid, if_pos rfl]
      rw [invalid, bind_ok, closing_clean_iff]
      constructor
      · rintro ⟨_, filled, _⟩
        cases filled
      · intro proper
        have accepted := (proper.kept none).2.1
        rw [valid] at accepted
        cases accepted
  | false =>
      rw [put_work_stored node items s call _ none valid]
      by_cases held : (call.existing.entryGetRaw call.source).key ≠ 0
      · rw [ensure_true _ held, bind_ok, bind_ok, closing_clean_iff, early, sent]
        constructor
        · rintro ⟨⟨work, account⟩, _, later, stored⟩
          have enough : call.amount ≤ ledgerAccountBalance s call.source := by
            by_contra short
            cases (stored short).1
          exact ⟨work, account, fun _ => ⟨enough, valid, held⟩, later⟩
        · rintro ⟨work, account, kept, later⟩
          exact ⟨⟨work, account⟩, rfl, later, fun short => absurd (kept none).1 short⟩
      · rw [ensure, if_neg held]
        constructor
        · rintro ⟨outcome, returned, _⟩
          cases returned
        · intro proper
          exact absurd (proper.kept none).2.2 held

/-- A request fails cleanly exactly if it is refused by the checks that end the handler, or nothing is wrong with it but the
balance, and then it brings no work. -/
theorem send_fails_cleanly_iff : FailsCleanly texts node enableControl items s request later wallet ↔
    ¬ ChecksStick texts enableControl items request ∧ ∀ call, (sendChecks texts enableControl items request).run = .ok (.ok call) →
      Proper texts node s request later wallet call := by
  rw [← checks_stop_iff, FailsCleanly]
  cases checked : (sendChecks texts enableControl items request).run with
  | error fault =>
      have stopped : answered texts node enableControl items s request later wallet = .error fault := by
        rw [answered, rpcSend, checked]
        rfl
      rw [stopped]
      constructor
      · rintro ⟨outcome, returned, _⟩
        cases returned
      · rintro ⟨running, _⟩
        exact absurd ⟨fault, checked⟩ running
  | ok out =>
      have running : ¬ Stops (sendChecks texts enableControl items request) := by
        rintro ⟨fault, stopped⟩
        rw [checked] at stopped
        cases stopped
      rw [and_iff_right running]
      cases out with
      | error message =>
          have refused : answered texts node enableControl items s request later wallet =
            .ok ⟨[errorResponse message], items, [], []⟩ := by
            rw [answered, rpcSend, checked]
            rfl
          rw [refused]
          constructor
          · intro _ call accepted
            cases accepted
          · exact fun _ => ⟨_, rfl, rfl, fun _ => ⟨rfl, rfl, rfl⟩⟩
      | ok call =>
          rw [answered_checked texts node enableControl items s request later wallet call checked, checked_clean_iff]
          constructor
          · intro proper other accepted
            cases accepted
            exact proper
          · exact fun all => all call rfl

end Answers

def sendItems : Table Key WalletStore := Table.empty.put 1 sampleHolding

def sendLedger : Store := { Store.fresh with accounts := Table.empty.put (genesisAccount .test) ⟨7, 7, 7, 5, 0, 1⟩ }

def sendRequest (amount work : String) : Ptree :=
  [("wallet", "1".toList), ("source", encodeAccount zeroTexts (genesisAccount .test)), ("destination", encodeAccount zeroTexts 5),
    ("amount", amount.toList), ("work", work.toList)]

-- A work text that is no number is answered and the send is queued; good work is kept for a send that the balance does not allow.
theorem send_failed_with_effect :
    ((rpcSend zeroTexts sampleNode true sendItems sendLedger (sendRequest "3" "zz")).map fun outcome =>
      (outcome.responses, outcome.stored, outcome.queued.length)) = .ok ([errorResponse "Bad work"], [], 1) ∧
    ((rpcSend zeroTexts sampleNode true sendItems sendLedger (sendRequest "9" "ff")).map fun outcome =>
      (outcome.responses, outcome.stored, outcome.queued.length)) = .ok ([errorResponse "Insufficient balance"], [0xff], 0) ∧
    ¬ FailsCleanly zeroTexts sampleNode true sendItems sendLedger (sendRequest "3" "zz") sendLedger sampleHolding ∧
    ¬ FailsCleanly zeroTexts sampleNode true sendItems sendLedger (sendRequest "9" "ff") sendLedger sampleHolding := by
  refine ⟨by decide +kernel, by decide +kernel, ?_, ?_⟩
  · rintro ⟨outcome, returned, single, _⟩
    have twice :
      ((answered zeroTexts sampleNode true sendItems sendLedger (sendRequest "3" "zz") sendLedger sampleHolding).map fun outcome =>
      outcome.responses.length) = .ok 2 := by decide +kernel
    rw [returned] at twice
    have two : outcome.responses.length = 2 := Except.ok.inj twice
    omega
  · rintro ⟨outcome, returned, _, quiet⟩
    have kept :
      ((answered zeroTexts sampleNode true sendItems sendLedger (sendRequest "9" "ff") sendLedger sampleHolding).map fun outcome =>
      (outcome.responses, outcome.stored)) = .ok ([errorResponse "Insufficient balance"], [0xff]) := by decide +kernel
    rw [returned] at kept
    obtain ⟨answer, stored⟩ := Prod.mk.inj (Except.ok.inj kept)
    have none := (quiet ⟨"Insufficient balance", by rw [answer]; exact List.mem_singleton_self _⟩).2.1
    rw [stored] at none
    cases none

end Rai
