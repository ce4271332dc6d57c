import Raiblocks.History
import Raiblocks.Supply

set_option autoImplicit false

namespace Rai

open Kit

section Amounts

variable {env : Env} {L : Lattice} (consistent : Consistent env L)
include consistent

-- No balance has ever wrapped on a receipt.
theorem received_in_full [HashesApart env] (h previous source : Hash) (n before : Note) (stored : L.get h = some n)
    (fields : n.block.hashables = .receiveBlock previous source) (present : L.get previous = some before) :
    n.balance.toNat = before.balance.toNat + n.amount.toNat := by
  refine consistent_induction env (fun L => ∀ h n previous source before, L.get h = some n →
    n.block.hashables = .receiveBlock previous source → L.get previous = some before →
    n.balance.toNat = before.balance.toNat + n.amount.toNat) ?_ ?_ L consistent h n previous source before stored fields present
  · intro stamp h n previous source before stored fields _
    obtain ⟨_, rfl⟩ := genesis_stored stamp stored
    cases fields
  · intro L h n consistent attach older x m previous source before stored fields present
    have prior : m.block.previous = previous := by simp [Block.previous, fields]
    obtain ⟨_, rfl⟩ | old := Table.put_some L h x n m stored
    · have entry := attach.entry
      simp only [Entry, fields] at entry
      obtain ⟨before', sent, present', sentTo, same⟩ := entry
      rw [Table.get_put_ne L h previous m (prior ▸ attach_previous_ne attach)] at present
      obtain rfl := Option.some.inj (present'.symm.trans present)
      have spent : m.block.source = source := by simp [Block.source, fields]
      have fits := receipt_fits env L h m before' sent consistent attach (prior ▸ present') (congrArg Note.account same :)
        (spent ▸ sentTo)
      rw [(congrArg Note.balance same :), (congrArg Note.amount same :)]
      exact BitVec.toNat_add_of_lt fits
    · rw [Table.get_put_ne L h previous n (prior ▸ (attach_unnamed consistent attach x m old).1)] at present
      exact older x m previous source before old fields present

def Lattice.balanceAt (L : Lattice) (h : Hash) : Amount := ((L.get h).map Note.balance).getD 0

omit consistent in
theorem balance_at_stored {h : Hash} {n : Note} (stored : L.get h = some n) : L.balanceAt h = n.balance := by
  rw [Lattice.balanceAt, stored]
  rfl

theorem amount_is_difference [HashesApart env] (h : Hash) (n : Note) (stored : L.get h = some n) :
    n.amount.toNat = ((n.balance.toNat : Int) - (L.balanceAt n.block.previous).toNat).natAbs := by
  cases fields : n.block.hashables with
  | sendBlock previous destination balance =>
      have prior : n.block.previous = previous := by simp [Block.previous, fields]
      obtain ⟨before, present, covered, value, amount⟩ := stored_send consistent stored fields
      have drop : n.amount.toNat = before.balance.toNat - balance.toNat := by rw [amount, BitVec.toNat_sub_of_le covered]
      have less : balance.toNat ≤ before.balance.toNat := covered
      rw [prior, balance_at_stored present, value, drop]
      omega
  | receiveBlock previous source =>
      have prior : n.block.previous = previous := by simp [Block.previous, fields]
      obtain ⟨before, _, present, _⟩ := stored_receive consistent stored fields
      rw [prior, balance_at_stored present,
        received_in_full consistent h previous source n before stored fields present]
      omega
  | openBlock source representative account =>
      have prior : n.block.previous = 0 := by simp [Block.previous, fields]
      have level : n.amount = n.balance := by
        obtain ⟨_, _, value, amount⟩ | ⟨_, _, _, _, value, amount⟩ := stored_open_source consistent stored fields
        · rw [value, amount]
        · rw [value, amount]
      have nothing : (L.balanceAt n.block.previous).toNat = 0 := by
        rw [prior, Lattice.balanceAt, zero_not_stored consistent]
        rfl
      rw [nothing, level]
      omega
  | changeBlock previous representative =>
      have prior : n.block.previous = previous := by simp [Block.previous, fields]
      obtain ⟨before, present, value, amount⟩ := stored_change consistent stored fields
      rw [prior, balance_at_stored present, value, amount, Int.sub_self]
      rfl
  | sendBlockV2 previous destination action =>
      have prior : n.block.previous = previous := by simp [Block.previous, fields]
      obtain ⟨before, present, value, amount⟩ := stored_v2 consistent stored fields
      rw [prior, balance_at_stored present, value, amount, Int.sub_self]
      rfl

end Amounts

section Visitors

variable {env : Env} {L : Lattice} {s : Store} [HashesApart env] (consistent : Consistent env L) (legacy : Legacy L)
include consistent legacy

theorem balance_yields (reads : Reads env L s) (h : Hash) (n : Note) (stored : L.get h = some n) :
    Yields (fun fuel => ledgerBalance env fuel s h) n.balance := by
  obtain ⟨rank, top, ranked⟩ := exists_ranked consistent
  exact yields_settled (fun fuel => ledger_balance_settles consistent ranked reads fuel stored) legacy

theorem amount_yields (reads : Reads env L s) (h : Hash) (n : Note) (stored : L.get h = some n) :
    Yields (fun fuel => ledgerAmount env fuel s h) n.amount := by
  obtain ⟨rank, top, ranked⟩ := exists_ranked consistent
  exact yields_settled (fun fuel => ledger_amount_settles consistent ranked reads fuel h n stored) legacy

theorem balance_below_yields (reads : Reads env L s) (h : Hash) (n : Note) (stored : L.get h = some n) :
    Yields (fun fuel => ledgerBalance env fuel s n.block.previous) (L.balanceAt n.block.previous) := by
  by_cases first : n.block.previous = 0
  · rw [first, Lattice.balanceAt, zero_not_stored consistent]
    exact yields_bounded fun fuel => balance_loop_zero env s fuel 0
  · obtain ⟨before, present, _⟩ := stored_before consistent stored first
    rw [balance_at_stored present]
    exact balance_yields consistent legacy reads _ before present

end Visitors

-- Checkpoints only shorten the walk: without any, the same blocks are still there to be read.
theorem reads_unaided (env : Env) (L : Lattice) (s : Store) (reads : Reads env L s) : Reads env L { s with blocksInfo := .empty } := by
  refine ⟨reads.blocks, reads.issuer, ?_⟩
  intro x info found
  rw [Table.get_empty] at found
  cases found

-- What the visitors compute from the stored blocks is what the accounts held, with
-- or without the checkpoints, and an amount is what the balance changed by.
theorem computed_balances_agree (env : Env) (apart : HashesApart env) (past : List Store) (s : Store)
    (history : History env (fun block => block.kind ≠ .sendBlockV2) past s) :
    (∀ account info, s.accounts.get account = some info → Yields (fun fuel => ledgerBalance env fuel s info.head) info.balance) ∧
    (∀ h, blockExists s h = true → ∃ account balance, OnChain s account h ∧ HeldAt past s h account balance ∧
      Yields (fun fuel => ledgerBalance env fuel s h) balance ∧
      Yields (fun fuel => ledgerBalance env fuel { s with blocksInfo := .empty } h) balance) ∧
    ∀ h block, blockGet s h = .ok (some block) → ∃ here below amount,
      Yields (fun fuel => ledgerBalance env fuel s h) here ∧ Yields (fun fuel => ledgerBalance env fuel s block.previous) below ∧
      (block.kind = .openBlock → below = 0) ∧ Yields (fun fuel => ledgerAmount env fuel s h) amount ∧
      amount.toNat = ((here.toNat : Int) - below.toNat).natAbs := by
  obtain ⟨L, remembers⟩ := history_remembers past s history
  have consistent := remembers.consistent
  have agrees := remembers.agrees
  have reads := agrees_reads consistent agrees
  have legacy := remembers_legacy env past s L remembers
  refine ⟨?_, ?_, ?_⟩
  · intro account info known
    obtain ⟨h, n, latest, _, same⟩ := account_owned agrees known
    rw [same]
    exact balance_yields consistent legacy reads h n latest.1
  · intro h present
    obtain ⟨n, stored⟩ := Option.ne_none_iff_exists'.mp ((exists_iff agrees.blocks h).mp present)
    exact ⟨n.account, n.balance, (on_chain_iff consistent agrees h n stored n.account).mpr rfl,
      remembers_held past s L remembers h n stored, balance_yields consistent legacy reads h n stored,
      balance_yields consistent legacy (reads_unaided env L s reads) h n stored⟩
  · intro h block read
    obtain ⟨n, stored, same⟩ := read_stored agrees read
    have plain := reads_as_exact n.block block same (legacy h n stored)
    subst plain
    refine ⟨n.balance, L.balanceAt n.block.previous, n.amount, balance_yields consistent legacy reads h n stored,
      balance_below_yields consistent legacy reads h n stored, ?_, amount_yields consistent legacy reads h n stored,
      amount_is_difference consistent h n stored⟩
    intro opening
    rw [open_previous n.block opening, Lattice.balanceAt, zero_not_stored consistent]
    rfl

theorem computed_balances_agree_sample : ∃ past s, History sampleEnv (fun block => block.kind ≠ .sendBlockV2) past s ∧
    blockExists s (sampleOpenMore.hash sampleEnv) = true ∧
    ∃ account balance, OnChain s account (sampleOpenMore.hash sampleEnv) ∧
    HeldAt past s (sampleOpenMore.hash sampleEnv) account balance ∧
      Yields (fun fuel => ledgerBalance sampleEnv fuel s (sampleOpenMore.hash sampleEnv)) balance := by
  obtain ⟨s, replay⟩ := sample_replayed
  obtain ⟨past, history⟩ := replay_history (fun block => block.kind ≠ .sendBlockV2) (by decide) replay
  have stored := replay_stored sampleLog s (by decide) replay sampleOpenMore (by simp [sampleLog])
  obtain ⟨account, balance, owned, held, computed, _⟩ := (computed_balances_agree sampleEnv sample_apart past s history).2.1 _ stored
  exact ⟨past, s, history, stored, account, balance, owned, held, computed⟩

end Rai
