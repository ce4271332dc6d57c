import Raiblocks.Balances
import Raiblocks.UpgradeSpec

set_option autoImplicit false

namespace Rai

open Kit

-- What stands for an account in a database of version `v`. The representative's block is whatever it was before version 3.
def RowFor (v : Nat) (info : AccountInfo) : AccountRow → Prop
  | .v1 row => v ≤ 1 ∧ ∃ rep, row = ⟨info.head, rep, info.balance, info.modified⟩
  | .v5 row => 2 ≤ v ∧ v ≤ 5 ∧ ∃ rep, row = ⟨info.head, rep, info.openBlock, info.balance, info.modified⟩ ∧
    (3 ≤ v → rep = info.repBlock)
  | .current row => 6 ≤ v ∧ row = info

-- What stands for a block: before version 5 its successor may be missing.
def ValueFor (v : Nat) (value stored : Bytes) : Prop :=
  stored = value ∨ v ≤ 4 ∧ stored = value.take (value.length - 32) ++ wordBytes 32 (0 : Hash)

def PendingFor (v : Nat) (s : Store) : PendingTable → Prop
  | .byHash table => v ≤ 3 ∧ ∀ h info, table.get h = some info ↔ s.pending.get ⟨info.destination, h⟩ = some ⟨info.source, info.amount⟩
  | .byKey table => 4 ≤ v ∧ ∀ key, table.get key = s.pending.get key

-- The database holds the ledger of `s` as version `v` would have stored it; what later versions added is missing or arbitrary.
structure InFormat (s : Store) (v : Nat) (db : Database) : Prop where
  version : db.versionGet = v
  accounts : ∀ account, Option.Rel (RowFor v) (s.accounts.get account) (db.accounts.get account)
  pending : PendingFor v s db.pending
  blocks : ∀ kind h, Option.Rel (ValueFor v) ((s.blocks kind).get h) ((db.store.blocks kind).get h)
  blocksInfo : ∀ h, db.store.blocksInfo.get h = if v ≤ 9 then none else s.blocksInfo.get h
  representation : 3 ≤ v → ∀ r, representationGet db.store r = representationGet s r
  sequence : v ≤ 8 → ∀ account values, db.sequence.get account = some values → ∀ value ∈ values, 8 ≤ value.length

section Carrying

variable {s : Store} {v : Nat}

theorem rel_mono {α β : Type} {r q : α → β → Prop} {a : Option α} {b : Option β} (rel : Option.Rel r a b)
    (weaker : ∀ a b, r a b → q a b) :
    Option.Rel q a b := by
  cases rel with
  | none => exact .none
  | some here => exact .some (weaker _ _ here)

theorem rel_none {α β : Type} {r : α → β → Prop} {a : Option α} (rel : Option.Rel r a (none : Option β)) : a = none := by
  cases rel
  rfl

theorem rel_absent {α β : Type} {r : α → β → Prop} {b : Option β} (rel : Option.Rel r (none : Option α) b) : b = none := by
  cases rel
  rfl

theorem rel_some {α β : Type} {r : α → β → Prop} {a : Option α} {b : β} (rel : Option.Rel r a (some b)) : ∃ x, a = some x ∧ r x b := by
  cases rel with
  | some here => exact ⟨_, rfl, here⟩

theorem row_for_next (same : v ≠ 1 ∧ v ≠ 2 ∧ v ≠ 5) (info : AccountInfo) (row : AccountRow) (fits : RowFor v info row) :
    RowFor (v + 1) info row := by
  cases row with
  | v1 old =>
      obtain ⟨low, rep, fields⟩ := fits
      exact ⟨by omega, rep, fields⟩
  | v5 old =>
      obtain ⟨low, high, rep, fields, named⟩ := fits
      exact ⟨by omega, by omega, rep, fields, fun _ => named (by omega)⟩
  | current old => exact ⟨Nat.le_succ_of_le fits.1, fits.2⟩

theorem value_for_next (same : v ≠ 4) (value stored : Bytes) (fits : ValueFor v value stored) : ValueFor (v + 1) value stored :=
  fits.imp_right fun stale => ⟨by omega, stale.2⟩

theorem pending_for_next (same : v ≠ 3) (table : PendingTable) (fits : PendingFor v s table) : PendingFor (v + 1) s table := by
  cases table with
  | byHash table => exact ⟨by have := fits.1; omega, fits.2⟩
  | byKey table => exact ⟨Nat.le_succ_of_le fits.1, fits.2⟩

variable (db : Database) (format : InFormat s v db)
include format

theorem accounts_next (same : v ≠ 1 ∧ v ≠ 2 ∧ v ≠ 5) (account : Account) :
    Option.Rel (RowFor (v + 1)) (s.accounts.get account) (db.accounts.get account) :=
  rel_mono (format.accounts account) (row_for_next same)

theorem blocks_next (same : v ≠ 4) (kind : Kind) (h : Hash) :
    Option.Rel (ValueFor (v + 1)) ((s.blocks kind).get h) ((db.store.blocks kind).get h) :=
  rel_mono (format.blocks kind h) (value_for_next same)

theorem pending_next (same : v ≠ 3) : PendingFor (v + 1) s db.pending := pending_for_next same db.pending format.pending

end Carrying

structure Rewritten (s : Store) (v : Nat) (old accounts : Table Account AccountRow) (done : List Account) : Prop where
  inside : ∀ account ∈ done, Option.Rel (RowFor v) (s.accounts.get account) (accounts.get account)
  outside : ∀ account, account ∉ done → accounts.get account = old.get account

section Rewriting

variable {s : Store} {v w : Nat} {old accounts : Table Account AccountRow} {done : List Account}

theorem rewritten_put (state : Rewritten s v old accounts done) (account : Account) (info : AccountInfo) (row : AccountRow)
    (known : s.accounts.get account = some info) (fits : RowFor v info row) :
    Rewritten s v old (accounts.put account row) (done ++ [account]) := by
  constructor
  · intro other member
    rw [Table.get_put]
    split
    · next same =>
        rw [same, known]
        exact .some fits
    · next different =>
        exact state.inside other ((List.mem_append.mp member).resolve_right fun here => different (List.mem_singleton.mp here))
  · intro other unlisted
    obtain ⟨unseen, different⟩ := not_or.mp (List.mem_append.not.mp unlisted)
    rw [Table.get_put_ne _ _ _ _ fun same => different (List.mem_singleton.mpr same), state.outside other unseen]

theorem rewritten_all (state : Rewritten s v old accounts done) (all : ∀ account row, old.get account = some row → account ∈ done)
    (fits : ∀ account, Option.Rel (RowFor w) (s.accounts.get account) (old.get account)) (account : Account) :
    Option.Rel (RowFor v) (s.accounts.get account) (accounts.get account) := by
  by_cases member : account ∈ done
  · exact state.inside account member
  · have absent : old.get account = none := by
      by_contra present
      obtain ⟨row, found⟩ := Option.ne_none_iff_exists'.mp present
      exact member (all account row found)
    have before := fits account
    rw [absent] at before
    rw [state.outside account member, absent, rel_none before]
    exact .none

end Rewriting

section Blocks

variable {L : Lattice} {s : Store} {v : Nat} (agrees : Agrees L s)

theorem stale_value (block : Block) (successor : Hash) :
    (block.serialize ++ wordBytes 32 successor).take ((block.serialize ++ wordBytes 32 successor).length - 32) ++ wordBytes 32
    (0 : Hash) =
      block.serialize ++ wordBytes 32 (0 : Hash) := by
  simp

section Values

variable {blocks : Kind → Table Hash Bytes} (fits : ∀ kind h, Option.Rel (ValueFor v) ((s.blocks kind).get h) ((blocks kind).get h))
include agrees fits

theorem format_value (x : Hash) (n : Note) (stored : L.get x = some n) :
    ∃ successor, (blocks n.block.kind).get x = some (n.block.serialize ++ wordBytes 32 successor) ∧
      (successor = L.succ x ∨ v ≤ 4 ∧ successor = 0) := by
  have fit := fits n.block.kind x
  rw [(agrees.blocks n.block.kind x).trans (raw_value_own L L.succ x n stored)] at fit
  cases found : (blocks n.block.kind).get x with
  | none =>
      rw [found] at fit
      cases fit
  | some value =>
      rw [found] at fit
      obtain ⟨_, whole, same | ⟨early, stale⟩⟩ := rel_some fit
      · exact ⟨L.succ x, by rw [same, ← whole], Or.inl rfl⟩
      · exact ⟨0, by rw [stale, ← Option.some.inj whole, stale_value], Or.inr ⟨early, rfl⟩⟩

theorem format_absent (kind : Kind) (x : Hash) (absent : rawValue L L.succ kind x = none) : (blocks kind).get x = none := by
  have fit := fits kind x
  rw [agrees.blocks kind x, absent] at fit
  exact rel_absent fit

theorem format_holds : ∃ next, BlocksHold L next blocks ∧ ∀ x n, L.get x = some n → next x = L.succ x ∨ v ≤ 4 ∧ next x = 0 := by
  have each : ∀ x, ∃ successor, ∀ n, L.get x = some n →
      (blocks n.block.kind).get x = some (n.block.serialize ++ wordBytes 32 successor) ∧
      (successor = L.succ x ∨ v ≤ 4 ∧ successor = 0) := by
    intro x
    cases stored : L.get x with
    | none => exact ⟨0, fun n found => nomatch found⟩
    | some n =>
        obtain ⟨successor, value, right⟩ := format_value agrees fits x n stored
        refine ⟨successor, fun m found => ?_⟩
        cases found
        exact ⟨value, right⟩
  choose next right using each
  refine ⟨next, fun kind x => ?_, fun x n stored => (right x n stored).2⟩
  cases stored : L.get x with
  | none =>
      rw [raw_value_none L next kind x stored]
      exact format_absent agrees fits kind x (raw_value_none L L.succ kind x stored)
  | some n =>
      by_cases own : n.block.kind = kind
      · rw [← own, raw_value_own L next x n stored]
        exact (right x n stored).1
      · rw [raw_value_other L next kind x n stored own]
        exact format_absent agrees fits kind x (raw_value_other L L.succ kind x n stored own)

end Values

include agrees in
theorem holds_format (next : Hash → Hash) (blocks : Kind → Table Hash Bytes) (holds : BlocksHold L next blocks)
    (filled : ∀ x n, L.get x = some n → next x = L.succ x) (kind : Kind) (h : Hash) :
    Option.Rel (ValueFor v) ((s.blocks kind).get h) ((blocks kind).get h) := by
  have same : (blocks kind).get h = (s.blocks kind).get h := by
    rw [agrees.blocks kind h]
    exact holds_congr L next L.succ blocks holds filled kind h
  rw [same]
  cases (s.blocks kind).get h with
  | none => exact .none
  | some value => exact .some (Or.inl rfl)

end Blocks

end Rai
