import Raiblocks.VisitorSpec
import Raiblocks.Ledger

set_option autoImplicit false

namespace Rai

open Kit

def AccountInfo.timeless (info : AccountInfo) : AccountInfo := { info with modified := 0 }

-- The store is the lattice written out in tables, up to the times of modification.
structure Agrees (L : Lattice) (s : Store) : Prop where
  blocks : BlocksHold L L.succ s.blocks
  accounts : ∀ account, (s.accounts.get account).map AccountInfo.timeless = L.info account
  frontiers : ∀ x, s.frontiers.get x = L.frontier x
  pending : ∀ key, s.pending.get key = L.pending key
  checkpoints : ∀ x, s.blocksInfo.get x = L.checkpoint x
  weights : ∀ r, representationGet s r = L.weight r
  checksum : s.checksum = Table.empty.put 0 L.digest

theorem info_timed (info : AccountInfo) (n : Note) (h : Hash) (same : info.timeless = n.info h 0) :
    info = n.info h info.modified := by
  cases info
  simp only [AccountInfo.timeless, Note.info, AccountInfo.mk.injEq] at same ⊢
  tauto

section Reading

variable {env : Env} {L : Lattice} {s : Store} (consistent : Consistent env L) (agrees : Agrees L s)

include consistent agrees in
theorem account_latest [HashesApart env] (h : Hash) (n : Note) (latest : L.Latest h n) :
    ∃ time, s.accounts.get n.account = some (n.info h time) := by
  have view := agrees.accounts n.account
  rw [info_latest consistent h n latest] at view
  obtain ⟨info, found, same⟩ := Option.map_eq_some_iff.mp view
  exact ⟨info.modified, found.trans (congrArg some (info_timed info n h same))⟩

include agrees in
theorem account_absent (account : Account) (unowned : ∀ h n, L.get h = some n → n.account ≠ account) :
    s.accounts.get account = none := by
  have view := agrees.accounts account
  rw [info_none account unowned] at view
  exact Option.map_eq_none_iff.mp view

include consistent agrees in
theorem account_present [HashesApart env] (h : Hash) (n : Note) (stored : L.get h = some n) :
    (s.accounts.get n.account).isSome = true := by
  obtain ⟨t, m, found, owner, last, _⟩ := exists_latest consistent h n stored
  obtain ⟨time, present⟩ := account_latest consistent agrees t m ⟨found, last⟩
  rw [← owner, present]
  rfl

include agrees in
theorem account_owned {account : Account} {info : AccountInfo} (found : s.accounts.get account = some info) :
    ∃ h n, L.Latest h n ∧ n.account = account ∧ info = n.info h info.modified := by
  have view := agrees.accounts account
  rw [found, Option.map_some] at view
  obtain ⟨h, n, latest, owner, same⟩ := info_some account _ view.symm
  exact ⟨h, n, latest, owner, info_timed info n h same⟩

include agrees in
theorem frontier_latest (h : Hash) (n : Note) (latest : L.Latest h n) : frontierGet s h = n.account := by
  have found : L.frontier h = some n.account := (frontier_some_iff h n.account).mpr ⟨n, latest, rfl⟩
  rw [frontierGet, agrees.frontiers, found]
  rfl

include agrees in
theorem frontier_covered (h : Hash) (covered : ∀ n, ¬ L.Latest h n) : frontierGet s h = 0 := by
  have absent : L.frontier h = none := by
    by_contra present
    obtain ⟨account, found⟩ := Option.ne_none_iff_exists'.mp present
    obtain ⟨n, latest, _⟩ := (frontier_some_iff h account).mp found
    exact covered n latest
  rw [frontierGet, agrees.frontiers, absent]
  rfl

include consistent agrees in
theorem agrees_reads [HashesApart env] : Reads env L s := reads_holds env L L.succ s consistent agrees.blocks agrees.checkpoints

include agrees in
theorem agrees_walks : Walks L s := by
  refine ⟨successor_stored agrees.blocks, ?_, frontier_latest agrees⟩
  intro x info found
  rw [agrees.checkpoints, checkpoint_some_iff] at found
  obtain ⟨n, stored, _, same⟩ := found
  exact ⟨n, stored, same⟩

theorem pending_unstored (key : PendingKey) (fresh : L.get key.hash = none) : L.pending key = none := by
  rw [Lattice.pending, fresh]

theorem pending_unaddressed (key : PendingKey) (n : Note) (stored : L.get key.hash = some n)
    (other : n.block.recipient ≠ some key.account) : L.pending key = none := by
  simp [Lattice.pending, stored, other]

end Reading

-- How each table must change so that it follows the attached block.
section Growth

variable {env : Env} {L : Lattice} {h : Hash} {n : Note} [HashesApart env] (consistent : Consistent env L)
  (attach : Attach env L h n)
include consistent attach

theorem blocks_attach (blocks : Kind → Table Hash Bytes) (holds : BlocksHold (L.put h n)
    (fun x => if x = h then 0 else if x = n.block.previous ∧ n.block.kind ≠ .openBlock then h else L.succ x) blocks) :
    BlocksHold (L.put h n) (Lattice.succ (L.put h n)) blocks := by
  apply holds_congr _ _ _ _ holds
  intro x m stored
  have grown := consistent_attach consistent attach
  have nonzero := stored_ne_zero grown x m stored
  rw [succ_attach consistent attach x nonzero]
  by_cases new : x = h
  · subst new
    rw [if_pos rfl, if_neg (attach_previous_ne attach).symm, succ_attached consistent attach]
  · have opening : x = n.block.previous → n.block.kind ≠ .openBlock := fun covered kind =>
      nonzero (covered.trans (open_previous n.block kind))
    by_cases covered : x = n.block.previous
    · rw [if_neg new, if_pos ⟨covered, opening covered⟩, if_pos covered]
    · rw [if_neg new, if_neg fun both => covered both.1, if_neg covered]

theorem accounts_attach (accounts : Table Account AccountInfo) (time : Nat)
    (agree : ∀ account, (accounts.get account).map AccountInfo.timeless = L.info account) (account : Account) :
    ((accounts.put n.account (n.info h time)).get account).map AccountInfo.timeless =
      Lattice.info (L.put h n) account := by
  rw [info_attach consistent attach, Table.get_put]
  split
  · rfl
  · exact agree account

theorem frontiers_attach_later (frontiers : Table Hash Account) (agree : ∀ x, frontiers.get x = L.frontier x) (x : Hash) :
    ((frontiers.del n.block.previous).put h n.account).get x = Lattice.frontier (L.put h n) x := by
  rw [frontier_attach consistent attach, Table.get_put, Table.get_del, agree]

theorem frontiers_attach_open (frontiers : Table Hash Account) (agree : ∀ x, frontiers.get x = L.frontier x)
    (opening : n.block.previous = 0) (x : Hash) :
    (frontiers.put h n.account).get x = Lattice.frontier (L.put h n) x := by
  rw [frontier_attach consistent attach, Table.get_put, agree]
  split
  · rfl
  · split
    · next covered => rw [covered, opening, Lattice.frontier, zero_not_stored consistent]
    · rfl

theorem pending_attach_unspending (unspending : n.block.source = 0) (key : PendingKey) : Lattice.pending (L.put h n) key =
    if key.hash = h then (if n.block.recipient = some key.account then some ⟨n.account, n.amount⟩ else none)
    else L.pending key := by
  rw [pending_attach consistent attach, unspending]
  split
  · rfl
  · split
    · next zero =>
        rw [pending_unstored key]
        rw [zero]
        exact zero_not_stored consistent
    · rfl

theorem pending_attach_send (pending : Table PendingKey PendingInfo) (agree : ∀ key, pending.get key = L.pending key)
    (destination : Account) (sends : n.block.recipient = some destination) (key : PendingKey) :
    (pending.put ⟨destination, h⟩ ⟨n.account, n.amount⟩).get key = Lattice.pending (L.put h n) key := by
  obtain ⟨previous, balance, fields⟩ := (recipient_eq_some n.block destination).mp sends
  have unspending : n.block.source = 0 := by simp [Block.source, fields]
  obtain ⟨account, hash⟩ := key
  rw [pending_attach_unspending consistent attach unspending, Table.get_put, agree, sends]
  by_cases new : hash = h
  · simp [new, pending_unstored ⟨account, h⟩ attach.fresh, eq_comm]
  · simp [new]

theorem pending_attach_receive (pending : Table PendingKey PendingInfo) (agree : ∀ key, pending.get key = L.pending key)
    (keeps : n.block.recipient = none) (sent : Note) (sentTo : SentTo L n.block.source n.account sent) (key : PendingKey) :
    (pending.del ⟨n.account, n.block.source⟩).get key = Lattice.pending (L.put h n) key := by
  obtain ⟨account, hash⟩ := key
  rw [pending_attach consistent attach, Table.get_del, agree, keeps]
  by_cases new : hash = h
  · simp [new, (attach_source_ne attach).symm, pending_unstored ⟨account, h⟩ attach.fresh]
  · by_cases spent : hash = n.block.source
    · by_cases addressed : account = n.account
      · simp [spent, addressed, attach_source_ne attach]
      · have other : L.pending ⟨account, n.block.source⟩ = none :=
          pending_unaddressed ⟨account, n.block.source⟩ sent sentTo.1 (by simp [sentTo.2, Ne.symm addressed])
        simp [spent, addressed, other]
    · simp [new, spent]

theorem pending_attach_other (pending : Table PendingKey PendingInfo) (agree : ∀ key, pending.get key = L.pending key)
    (keeps : n.block.recipient = none) (unspending : n.block.source = 0) (key : PendingKey) :
    pending.get key = Lattice.pending (L.put h n) key := by
  obtain ⟨account, hash⟩ := key
  rw [pending_attach_unspending consistent attach unspending, agree, keeps]
  by_cases new : hash = h
  · simp [new, pending_unstored ⟨account, h⟩ attach.fresh]
  · simp [new]

omit [HashesApart env] consistent in
theorem checkpoints_attach (checkpoints : Table Hash BlockInfo) (agree : ∀ x, checkpoints.get x = L.checkpoint x) (x : Hash) :
    (if n.height % blockInfoMax = 0 then checkpoints.put h ⟨n.account, n.balance⟩ else checkpoints).get x =
      Lattice.checkpoint (L.put h n) x := by
  rw [checkpoint_attach attach]
  by_cases due : n.height % blockInfoMax = 0
  · simp [due, Table.get_put, agree]
  · simp [due, agree]

theorem agrees_later (s s' : Store) (time : Nat) (before : Note) (agrees : Agrees L s) (stored : L.get n.block.previous = some before)
    (owner : n.account = before.account) (holds : BlocksHold (L.put h n) (Lattice.succ (L.put h n)) s'.blocks)
    (accounts : s'.accounts = s.accounts.put n.account (n.info h time))
    (frontiers : s'.frontiers = (s.frontiers.del n.block.previous).put h n.account)
    (checkpoints : s'.blocksInfo = if n.height % blockInfoMax = 0 then s.blocksInfo.put h ⟨n.account, n.balance⟩ else s.blocksInfo)
    (checksum : s'.checksum = Table.empty.put 0 (L.digest ^^^ n.block.previous ^^^ h))
    (pending : ∀ key, s'.pending.get key = Lattice.pending (L.put h n) key)
    (weights : ∀ r, representationGet s' r = Lattice.weight (L.put h n) r) : Agrees (L.put h n) s' := by
  refine ⟨holds, ?_, ?_, pending, ?_, weights, ?_⟩
  · rw [accounts]
    exact accounts_attach consistent attach _ time agrees.accounts
  · rw [frontiers]
    exact frontiers_attach_later consistent attach _ agrees.frontiers
  · rw [checkpoints]
    exact checkpoints_attach attach _ agrees.checkpoints
  · rw [checksum, digest_attach_later consistent attach before stored owner]

theorem agrees_first (s s' : Store) (time : Nat) (agrees : Agrees L s) (first : n.block.previous = 0)
    (holds : BlocksHold (L.put h n) (Lattice.succ (L.put h n)) s'.blocks)
    (accounts : s'.accounts = s.accounts.put n.account (n.info h time)) (frontiers : s'.frontiers = s.frontiers.put h n.account)
    (checkpoints : s'.blocksInfo = if n.height % blockInfoMax = 0 then s.blocksInfo.put h ⟨n.account, n.balance⟩ else s.blocksInfo)
    (checksum : s'.checksum = Table.empty.put 0 (L.digest ^^^ h))
    (pending : ∀ key, s'.pending.get key = Lattice.pending (L.put h n) key)
    (weights : ∀ r, representationGet s' r = Lattice.weight (L.put h n) r) : Agrees (L.put h n) s' := by
  refine ⟨holds, ?_, ?_, pending, ?_, weights, ?_⟩
  · rw [accounts]
    exact accounts_attach consistent attach _ time agrees.accounts
  · rw [frontiers]
    exact frontiers_attach_open consistent attach _ agrees.frontiers first
  · rw [checkpoints]
    exact checkpoints_attach attach _ agrees.checkpoints
  · rw [checksum, digest_attach_open consistent attach first]

end Growth

-- How each table must change back when that block is removed.
section Removal

variable {env : Env} {L : Lattice} {h : Hash} {n : Note} [HashesApart env] (consistent : Consistent env L)
  (attach : Attach env L h n)
include consistent attach

theorem accounts_detach_later (accounts : Table Account AccountInfo) (time : Nat) (before : Note)
    (agree : ∀ account, (accounts.get account).map AccountInfo.timeless = Lattice.info (L.put h n) account)
    (stored : L.get n.block.previous = some before) (owner : n.account = before.account) (account : Account) :
    ((accounts.put n.account (before.info n.block.previous time)).get account).map AccountInfo.timeless =
      L.info account := by
  rw [Table.get_put]
  split
  · next own =>
      rw [own, owner, info_latest consistent _ before (latest_before consistent attach stored owner)]
      rfl
  · next other => rw [agree, info_attach consistent attach, if_neg other]

theorem accounts_detach_open (accounts : Table Account AccountInfo)
    (agree : ∀ account, (accounts.get account).map AccountInfo.timeless = Lattice.info (L.put h n) account)
    (opening : n.block.previous = 0) (account : Account) :
    ((accounts.del n.account).get account).map AccountInfo.timeless = L.info account := by
  rw [Table.get_del]
  split
  · next own => rw [own, info_none n.account (unowned_attach consistent attach opening), Option.map_none]
  · next other => rw [agree, info_attach consistent attach, if_neg other]

theorem frontiers_detach_later (frontiers : Table Hash Account) (before : Note)
    (agree : ∀ x, frontiers.get x = Lattice.frontier (L.put h n) x)
    (stored : L.get n.block.previous = some before) (owner : n.account = before.account) (x : Hash) :
    ((frontiers.del h).put n.block.previous n.account).get x = L.frontier x := by
  have latest := latest_before consistent attach stored owner
  rw [Table.get_put, Table.get_del]
  split
  · next covered => rw [covered, (frontier_some_iff _ n.account).mpr ⟨before, latest, owner.symm⟩]
  · next other =>
      split
      · next new => rw [new, Lattice.frontier, attach.fresh]
      · next old => rw [agree, frontier_attach consistent attach, if_neg old, if_neg other]

theorem frontiers_detach_open (frontiers : Table Hash Account) (agree : ∀ x, frontiers.get x = Lattice.frontier (L.put h n) x)
    (opening : n.block.previous = 0) (x : Hash) : (frontiers.del h).get x = L.frontier x := by
  rw [Table.get_del]
  split
  · next new => rw [new, Lattice.frontier, attach.fresh]
  · next old =>
      rw [agree, frontier_attach consistent attach, if_neg old]
      split
      · next covered => rw [covered, opening, Lattice.frontier, zero_not_stored consistent]
      · rfl

theorem pending_detach_send (pending : Table PendingKey PendingInfo) (destination : Account)
    (agree : ∀ key, pending.get key = Lattice.pending (L.put h n) key)
    (sends : n.block.recipient = some destination) (key : PendingKey) :
    (pending.del ⟨destination, h⟩).get key = L.pending key := by
  obtain ⟨previous, balance, fields⟩ := (recipient_eq_some n.block destination).mp sends
  have unspending : n.block.source = 0 := by simp [Block.source, fields]
  obtain ⟨account, hash⟩ := key
  rw [Table.get_del, agree, pending_attach_unspending consistent attach unspending, sends]
  by_cases new : hash = h
  · simp [new, pending_unstored ⟨account, h⟩ attach.fresh, eq_comm]
  · simp [new]

theorem pending_detach_receive (pending : Table PendingKey PendingInfo) (sent : Note)
    (agree : ∀ key, pending.get key = Lattice.pending (L.put h n) key) (keeps : n.block.recipient = none)
    (sentTo : SentTo L n.block.source n.account sent) (key : PendingKey) :
    (pending.put ⟨n.account, n.block.source⟩ ⟨sent.account, sent.amount⟩).get key = L.pending key := by
  have unspent : ¬ L.Received n.block.source := by
    rintro ⟨c, m, stored, spent⟩
    exact attach.unspent c m stored (stored_ne_zero consistent _ sent sentTo.1) spent.symm
  obtain ⟨account, hash⟩ := key
  rw [Table.get_put, agree, pending_attach consistent attach, keeps]
  by_cases new : hash = h
  · simp [new, (attach_source_ne attach).symm, pending_unstored ⟨account, h⟩ attach.fresh]
  · by_cases spent : hash = n.block.source
    · subst spent
      by_cases addressed : account = n.account
      · subst addressed
        rw [if_pos rfl, (pending_some_iff ⟨n.account, n.block.source⟩ _).mpr ⟨sent, sentTo, unspent, rfl⟩]
      · have other : L.pending ⟨account, n.block.source⟩ = none :=
          pending_unaddressed ⟨account, n.block.source⟩ sent sentTo.1 (by simp [sentTo.2, Ne.symm addressed])
        simp [addressed, other]
    · simp [new, spent]

theorem pending_detach_other (pending : Table PendingKey PendingInfo)
    (agree : ∀ key, pending.get key = Lattice.pending (L.put h n) key) (keeps : n.block.recipient = none)
    (unspending : n.block.source = 0) (key : PendingKey) : pending.get key = L.pending key := by
  obtain ⟨account, hash⟩ := key
  rw [agree, pending_attach_unspending consistent attach unspending, keeps]
  by_cases new : hash = h
  · simp [new, pending_unstored ⟨account, h⟩ attach.fresh]
  · simp [new]

omit [HashesApart env] consistent in
theorem checkpoints_detach (checkpoints : Table Hash BlockInfo)
    (agree : ∀ x, checkpoints.get x = Lattice.checkpoint (L.put h n) x) (x : Hash) :
    (if n.height % blockInfoMax = 0 then checkpoints.del h else checkpoints).get x = L.checkpoint x := by
  by_cases due : n.height % blockInfoMax = 0
  · rw [if_pos due, Table.get_del, agree, checkpoint_attach attach]
    split
    · next new => rw [new, Lattice.checkpoint, attach.fresh]
    · next old => rw [if_neg fun both => old both.1]
  · rw [if_neg due, agree, checkpoint_attach attach, if_neg fun both => due both.2]

end Removal

end Rai
