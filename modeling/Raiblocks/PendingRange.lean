import Mathlib.Data.Prod.Lex
import Raiblocks.Election
import Raiblocks.Kit.Cursor
import Raiblocks.Numbers

set_option autoImplicit false

namespace Rai

open Kit

def PendingKey.toLexPair (key : PendingKey) : Account ×ₗ Hash := toLex (key.account, key.hash)

theorem pending_key_injective : Function.Injective PendingKey.toLexPair := by
  intro a b same
  have pairs : (a.account, a.hash) = (b.account, b.hash) := toLex.injective same
  cases a
  cases b
  simpa using pairs

-- The database compares the 64 bytes of two keys.
instance pendingOrder : LinearOrder PendingKey := LinearOrder.lift' PendingKey.toLexPair pending_key_injective

theorem pending_key_le (a b : PendingKey) : a ≤ b ↔ a.account < b.account ∨ a.account = b.account ∧ a.hash ≤ b.hash :=
  Prod.Lex.toLex_le_toLex

theorem pending_key_lt (a b : PendingKey) : a < b ↔ a.account < b.account ∨ a.account = b.account ∧ a.hash < b.hash :=
  Prod.Lex.toLex_lt_toLex

theorem account_from (account : Account) (key : PendingKey) : (⟨account, 0⟩ : PendingKey) ≤ key ↔ account ≤ key.account := by
  rw [pending_key_le]
  exact (or_congr_right (and_iff_left (Nat.zero_le key.hash.toNat))).trans le_iff_lt_or_eq.symm

theorem account_below (account : Account) (key : PendingKey) : key < (⟨account, 0⟩ : PendingKey) ↔ key.account < account := by
  rw [pending_key_lt]
  exact or_iff_left fun both => BitVec.not_lt_zero both.2

section Model

variable (texts : Texts)

-- Both readers of the range take the next account as its end. For the last account that is account zero.
def pendingRange {α : Type} (s : Store) (account : Account) (more : α → Bool) (body : α → PendingKey × PendingInfo → α)
    (start : α) : Except Fault α :=
  forRange more body ((s.pending.rowsFrom ⟨account + 1, 0⟩).head?.map Prod.fst) (s.pending.rowsFrom ⟨account, 0⟩) start

def ledgerAccountPending (s : Store) (account : Account) : Except Fault Amount :=
  pendingRange s account (fun _ => true) (fun result row => result + row.2.amount) 0

structure PendingRequest where
  account : Text
  count : Option Text
  threshold : Option Text
  source : Option Bool

inductive PendingEntry where
  | hash (hash : Text)
  | amount (hash amount : Text)
  | sourced (hash amount source : Text)
deriving DecidableEq, Repr

inductive RpcResponse where
  | error (message : String)
  | blocks (entries : List PendingEntry)
deriving DecidableEq, Repr

-- `std::stoull` gives the number and where it ends, or throws.
def decodeUnsigned (stoull : Text → Option (BitVec 64 × Nat)) (text : Text) (number : BitVec 64) : Bool × BitVec 64 :=
  match stoull text with
  | some (value, stop) => (stop ≠ text.length, value)
  | none => (true, number)

def pendingEntry (threshold : Amount) (source : Bool) (row : PendingKey × PendingInfo) : Option PendingEntry :=
  let hash := UInt256Union.encodeHex texts row.1.hash
  let amount := UInt128Union.encodeDec texts row.2.amount
  if threshold = 0 ∧ source = false then some (.hash hash)
  else if row.2.amount ≥ threshold then
    if source then some (.sourced hash amount (encodeAccount texts row.2.source)) else some (.amount hash amount)
  else none

-- The responses in the order in which they are given: a bad count or threshold is reported, and the handler goes on.
def rpcPending (stoull : Text → Option (BitVec 64 × Nat)) (s : Store) (request : PendingRequest) : Except Fault (List RpcResponse) := do
  match ← decodeAccount texts request.account with
  | none => .ok [.error "Bad account number"]
  | some account =>
      let (badCount, count) := (request.count.map fun text => decodeUnsigned stoull text (BitVec.allOnes 64)).getD
        (false, BitVec.allOnes 64)
      let (badThreshold, threshold) := (request.threshold.map fun text => UInt128Union.decodeDec texts 0 text).getD (false, 0)
      let source := request.source.getD false
      let entries ← pendingRange s account (fun entries => entries.length < count.toNat)
        (fun entries row => entries ++ (pendingEntry texts threshold source row).toList) []
      .ok ((if badCount then [.error "Invalid count limit"] else []) ++
        (if badThreshold then [.error "Bad threshold number"] else []) ++ [.blocks entries])

end Model

def lastAccount : Account := BitVec.allOnes 256

def ownPending (s : Store) (account : Account) : List (PendingKey × PendingInfo) :=
  s.pending.rows.filter fun row => row.1.account = account

theorem next_account (account other : Account) (below : account ≠ lastAccount) :
    account ≤ other ∧ other < account + 1 ↔ other = account := by
  have room : account.toNat + 1 < 2 ^ 256 := by
    have small := account.isLt
    have different : account.toNat ≠ 2 ^ 256 - 1 := fun same => below (BitVec.eq_of_toNat_eq (by rw [same]; rfl))
    omega
  have next : (account + 1).toNat = account.toNat + 1 := by
    rw [BitVec.toNat_add]
    exact Nat.mod_eq_of_lt room
  rw [BitVec.le_def, BitVec.lt_def, next, ← BitVec.toNat_inj]
  omega

section Range

variable (s : Store) (account : Account)

theorem own_between (below : account ≠ lastAccount) : s.pending.between ⟨account, 0⟩ ⟨account + 1, 0⟩ = ownPending s account := by
  refine List.filter_congr fun row _ => decide_eq_decide.mpr ?_
  exact (and_congr (account_from account row.1) (account_below (account + 1) row.1)).trans (next_account account row.1.account below)

theorem account_range {α : Type} (more : α → Bool) (body : α → PendingKey × PendingInfo → α) (start : α)
    (below : account ≠ lastAccount) :
    pendingRange s account more body start = .ok (foldWhile more body (ownPending s account) start) := by
  have ordered : (⟨account, 0⟩ : PendingKey) ≤ ⟨account + 1, 0⟩ :=
    (account_from account _).mpr ((next_account account account below).mpr rfl).2.le
  have apart : ∀ row ∈ s.pending.between ⟨account, 0⟩ ⟨account + 1, 0⟩,
      (s.pending.rowsFrom ⟨account + 1, 0⟩).head?.map Prod.fst ≠ some row.1 := by
    intro row inside same
    obtain ⟨first, head, key⟩ := Option.map_eq_some_iff.mp same
    have from_ : (⟨account + 1, 0⟩ : PendingKey) ≤ first.1 := of_decide_eq_true (List.mem_filter.mp (List.mem_of_head? head)).2
    have before := (of_decide_eq_true (List.mem_filter.mp inside).2).2
    exact absurd (key ▸ from_) (not_le.mpr before)
  rw [pendingRange, s.pending.rows_from_split _ _ ordered, for_range_until _ _ start apart, own_between s account below]

theorem rows_nonempty (filled : s.pending ≠ .empty) : ∃ first rest, s.pending.rows = first :: rest := by
  refine List.exists_cons_of_ne_nil fun none => filled ?_
  have lists := s.pending.lists_rows
  rw [none] at lists
  exact Table.lists_nil _ lists

theorem range_end_wraps : (s.pending.rowsFrom ⟨lastAccount + 1, 0⟩) = s.pending.rows := by
  refine List.filter_eq_self.mpr fun row _ => decide_eq_true ((account_from _ row.1).mpr ?_)
  exact Nat.zero_le row.1.account.toNat

theorem from_last (key : PendingKey) : (⟨lastAccount, 0⟩ : PendingKey) ≤ key ↔ key.account = lastAccount := by
  rw [account_from]
  exact ⟨fun above => le_antisymm (Nat.le_sub_one_of_lt key.account.isLt) above, fun same => same ▸ le_rfl⟩

-- The end of the last account's range is the first entry of the table. The loop either starts there or runs behind the last entry.
theorem last_range (filled : s.pending ≠ .empty) :
    (∀ {α : Type} (body : α → PendingKey × PendingInfo → α) (start : α),
    pendingRange s lastAccount (fun _ => true) body start = .error .abort) ∨
    ownPending s lastAccount ≠ [] ∧
      ∀ {α : Type} (more : α → Bool) (body : α → PendingKey × PendingInfo → α) (start : α),
      pendingRange s lastAccount more body start = .ok start := by
  obtain ⟨first, rest, rows⟩ := rows_nonempty s filled
  have stop : (s.pending.rowsFrom ⟨lastAccount + 1, 0⟩).head?.map Prod.fst = some first.1 := by
    rw [range_end_wraps, rows]
    rfl
  by_cases owned : first.1.account = lastAccount
  · have listed : first ∈ ownPending s lastAccount := List.mem_filter.mpr ⟨rows ▸ List.mem_cons_self, decide_eq_true owned⟩
    refine .inr ⟨List.ne_nil_of_mem listed, fun more body start => ?_⟩
    have begins : s.pending.rowsFrom ⟨lastAccount, 0⟩ = first :: rest.filter fun row => (⟨lastAccount, 0⟩ : PendingKey) ≤ row.1 := by
      rw [Table.rowsFrom, rows]
      exact List.filter_cons_of_pos (decide_eq_true ((from_last first.1).mpr owned))
    rw [pendingRange, stop, begins]
    simp [forRange]
  · refine .inl fun body start => ?_
    rw [pendingRange, stop]
    refine for_range_missed first.1 _ start (fun _ => rfl) fun row member same => owned ?_
    have from_ := of_decide_eq_true (List.mem_filter.mp member).2
    exact same ▸ (from_last row.1).mp from_

theorem owned_fold (rows : List (PendingKey × PendingInfo)) (total : Amount) :
    (rows.filter fun row => row.1.account = account).foldl (fun result row => result + row.2.amount) total =
      total + rows.foldr (fun row rest => (if row.1.account = account then row.2.amount else 0) + rest) 0 := by
  induction rows generalizing total with
  | nil => simp
  | cons row rows ih =>
      by_cases owned : row.1.account = account
      · simp [owned, ih, add_assoc]
      · simp [owned, ih]

theorem account_pending_sum (below : account ≠ lastAccount) : ledgerAccountPending s account = .ok (pendingSum s account) := by
  have total : (ownPending s account).foldl (fun result row => result + row.2.amount) 0 = pendingSum s account := by
    rw [ownPending, owned_fold, zero_add]
    exact Table.lists_fold (M := Amount) (· + ·) 0 (fun key info => if key.account = account then info.amount else 0) s.pending _
      s.pending.lists_rows
  rw [ledgerAccountPending, account_range s account _ _ _ below, fold_while_always, total]

theorem listed_while (count : Nat) (entry : PendingKey × PendingInfo → PendingEntry) (rows : List (PendingKey × PendingInfo))
    (entries : List PendingEntry) :
    foldWhile (fun entries => decide (entries.length < count)) (fun entries row => entries ++ [entry row]) rows entries =
      entries ++ (rows.map entry).take (count - entries.length) := by
  induction rows generalizing entries with
  | nil => simp [foldWhile]
  | cons row rows ih =>
      by_cases room : entries.length < count
      · obtain ⟨left, more⟩ : ∃ left, count - entries.length = left + 1 := ⟨count - entries.length - 1, by omega⟩
        have rest : count - (entries ++ [entry row]).length = left := by
          rw [List.length_append, List.length_singleton]
          omega
        simp only [foldWhile, room, decide_true, if_true, ih, rest, more, List.map_cons, List.take_succ_cons, List.append_assoc,
          List.singleton_append]
      · have none : count - entries.length = 0 := by omega
        simp [foldWhile, room, none]

end Range

section Exact

variable (texts : Texts) (stoull : Text → Option (BitVec 64 × Nat)) (s : Store) (account : Account)

def PendingRequest.plain (text : Text) : PendingRequest := ⟨text, none, none, none⟩

def pendingHashes : List PendingEntry := (ownPending s account).map fun row => .hash (UInt256Union.encodeHex texts row.1.hash)

theorem rpc_pending_plain (text : Text) (names : decodeAccount texts text = .ok (some account)) :
    rpcPending texts stoull s (.plain text) = (pendingRange s account (fun entries => entries.length < (BitVec.allOnes 64).toNat)
      (fun entries row => entries ++ [.hash (UInt256Union.encodeHex texts row.1.hash)]) []).map fun entries => [.blocks entries] := by
  rw [rpcPending, PendingRequest.plain, names]
  change (pendingRange s account _ (fun entries row => entries ++ [PendingEntry.hash (UInt256Union.encodeHex texts row.1.hash)]) [] >>=
    fun entries => .ok [RpcResponse.blocks entries]) = _
  generalize pendingRange s account _ _ [] = listed
  cases listed <;> rfl

theorem rpc_pending_listed (text : Text) (names : decodeAccount texts text = .ok (some account)) (below : account ≠ lastAccount) :
    rpcPending texts stoull s (.plain text) = .ok [.blocks ((pendingHashes texts s account).take (2 ^ 64 - 1))] := by
  rw [rpc_pending_plain texts stoull s account text names, account_range s account _ _ _ below, listed_while]
  rfl

theorem empty_range {α : Type} (more : α → Bool) (body : α → PendingKey × PendingInfo → α) (start : α) (none : s.pending = .empty) :
    pendingRange s account more body start = .ok start := by
  have rows : s.pending.rows = [] := by rw [none]; rfl
  simp [pendingRange, Table.rowsFrom, rows, forRange]

theorem sum_word : BitVec.ofNat 128 (s.pending.sum fun key info => if key.account = account then info.amount.toNat else 0) =
    pendingSum s account := by
  apply BitVec.eq_of_toNat_eq
  rw [BitVec.toNat_ofNat, pending_sum_value]

def Answered : Prop :=
  ledgerAccountPending s account = .ok (pendingSum s account) ∧ ∀ text, decodeAccount texts text = .ok (some account) →
    rpcPending texts stoull s (.plain text) = .ok [.blocks (pendingHashes texts s account)]

theorem answered_empty (empty : s.pending = .empty) : Answered texts stoull s account := by
  have own : ownPending s account = [] := by
    rw [ownPending, empty]
    rfl
  have nothing : pendingSum s account = 0 := by
    rw [pendingSum, empty]
    rfl
  refine ⟨?_, fun text names => ?_⟩
  · rw [ledgerAccountPending, empty_range s account _ _ _ empty, nothing]
  · rw [rpc_pending_plain texts stoull s account text names, empty_range s account _ _ _ empty, pendingHashes, own]
    rfl

theorem last_not_answered (nonempty : s.pending ≠ .empty) : ¬ Answered texts stoull s lastAccount := by
  rintro ⟨summed, listed⟩
  have named := decode_encode_account texts lastAccount
  rcases last_range s nonempty with aborts | ⟨owned, starts⟩
  · rw [ledgerAccountPending, aborts] at summed
    cases summed
  · have listing := listed _ named
    rw [rpc_pending_plain texts stoull s lastAccount _ named, starts] at listing
    have same : [] = pendingHashes texts s lastAccount := RpcResponse.blocks.inj (List.head_eq_of_cons_eq (Except.ok.inj listing))
    exact owned (List.map_eq_nil_iff.mp same.symm)

theorem answered_iff_short (below : account ≠ lastAccount) :
    Answered texts stoull s account ↔ (ownPending s account).length < 2 ^ 64 := by
  have named := decode_encode_account texts account
  have listing := rpc_pending_listed texts stoull s account
  have length : (pendingHashes texts s account).length = (ownPending s account).length := List.length_map _
  constructor
  · rintro ⟨_, listed⟩
    have whole := (listing _ named below).symm.trans (listed _ named)
    have same := RpcResponse.blocks.inj (List.head_eq_of_cons_eq (Except.ok.inj whole))
    have short := List.take_eq_self_iff _ |>.mp same
    omega
  · intro short
    refine ⟨account_pending_sum s account below, fun text names => ?_⟩
    rw [listing text names below, List.take_of_length_le (by omega)]

theorem pending_queries_exact_iff :
    (ledgerAccountPending s account =
        .ok (BitVec.ofNat 128 (s.pending.sum fun key info => if key.account = account then info.amount.toNat else 0)) ∧
      ∀ text, decodeAccount texts text = .ok (some account) →
        rpcPending texts stoull s (.plain text) = .ok [.blocks (pendingHashes texts s account)]) ↔
    (account ≠ lastAccount ∨ s.pending = .empty) ∧ (ownPending s account).length < 2 ^ 64 := by
  rw [sum_word]
  change Answered texts stoull s account ↔ _
  by_cases empty : s.pending = .empty
  · have own : (ownPending s account).length = 0 := by
      rw [ownPending, empty]
      rfl
    exact iff_of_true (answered_empty texts stoull s account empty) ⟨.inr empty, by rw [own]; decide⟩
  · rw [or_iff_left empty]
    by_cases last : account = lastAccount
    · rw [last]
      exact iff_of_false (last_not_answered texts stoull s empty) fun both => both.1 rfl
    · rw [answered_iff_short texts stoull s account last]
      exact (and_iff_right last).symm

end Exact

def lastPending : Store := { Store.fresh with pending := Table.empty.put ⟨lastAccount, 5⟩ ⟨7, 1⟩ }

def mixedPending : Store := { lastPending with pending := lastPending.pending.put ⟨3, 6⟩ ⟨7, 2⟩ }

-- One entry for the last account, which neither query finds; with an entry of another account besides, both abort.
theorem last_account_missed :
    ledgerAccountPending lastPending lastAccount = .ok 0 ∧ (ownPending lastPending lastAccount).map (fun row => row.2.amount) = [1] ∧
    rpcPending (plainTexts (fun _ => 0) fun _ => 0) (fun _ => none) lastPending
      (.plain (encodeAccount (plainTexts (fun _ => 0) fun _ => 0) lastAccount)) = .ok [.blocks []] ∧
    ledgerAccountPending mixedPending lastAccount = .error .abort ∧
    rpcPending (plainTexts (fun _ => 0) fun _ => 0) (fun _ => none) mixedPending
      (.plain (encodeAccount (plainTexts (fun _ => 0) fun _ => 0) lastAccount)) = .error .abort := by
  decide +kernel

theorem supply_never_wraps (env : Env) (apart : HashesApart env) (s : Store) (reached : Reachable env s) (inactive : Amount) :
    ledgerAccountPending s burnAccount = .ok (pendingSum s burnAccount) ∧
    ((ledgerSupply env inactive s).toNat : Int) = max 0 ((2 ^ 128 - 1) - (ledgerAccountBalance s (genesisAccount env.network)).toNat -
      ((s.pending.sum fun key info => if key.account = 0 then info.amount.toNat else 0 : Nat) : Int) - inactive.toNat) := by
  obtain ⟨L, consistent, agrees⟩ := reachable_agrees reached
  obtain ⟨burned, parts⟩ := supply_parts consistent agrees
  have exact := supply_exact consistent agrees inactive
  refine ⟨account_pending_sum s burnAccount (by decide), ?_⟩
  rw [← burned]
  omega

def burnSend : Block := ⟨.sendBlock (genesisHash sampleEnv) 0 5, 0, 0⟩

theorem supply_after_burning : ∃ s, Replay sampleEnv [burnSend] s ∧
    ((ledgerSupply sampleEnv 3 s).toNat : Int) =
    max 0 ((2 ^ 128 - 1) - (ledgerAccountBalance s (genesisAccount sampleEnv.network)).toNat -
      ((s.pending.sum fun key info => if key.account = 0 then info.amount.toNat else 0 : Nat) : Int) - (3 : Amount).toNat) := by
  obtain ⟨s, _, replay⟩ := replay_all_replays sampleEnv 20 [burnSend] (by decide +kernel)
  exact ⟨s, replay, (supply_never_wraps sampleEnv sample_apart s (replay_reachable replay) 3).2⟩

end Rai
