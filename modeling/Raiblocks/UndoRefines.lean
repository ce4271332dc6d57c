import Raiblocks.ProcessRefines
import Raiblocks.Rollback

set_option autoImplicit false

namespace Rai

open Kit

theorem balance_contract (env : Env) (L : Lattice) (s : Store) (x : Hash) (n : Note) [HashesApart env]
    (consistent : Consistent env L) (reads : Reads env L s) (stored : L.get x = some n) (contract : n.block.kind = .sendBlockV2)
    (fuel : Nat) (result : Amount) : balanceLoop env s fuel x result = .error .fuel := by
  induction fuel with
  | zero => rfl
  | succ fuel ih =>
      obtain ⟨found, read, same⟩ := reads.blocks x n stored
      rw [balanceLoop, if_neg (stored_ne_zero consistent x n stored), read, bind_ok, require_some, bind_ok]
      have kind := (reads_as_kind n.block same).trans contract
      obtain ⟨hashables, signature, work⟩ := found
      cases hashables with
      | sendBlockV2 previous destination action => exact ih
      | _ => cases kind

structure Becomes (L : Lattice) (s s' : Store) : Prop where
  agrees : Agrees L s'
  unchecked : s'.unchecked = s.unchecked
  cache : s'.uncheckedCache = s.uncheckedCache
  codes : s'.vmCodes = s.vmCodes

structure Computes (env : Env) (fuel : Nat) (s : Store) (block : Block) : Prop where
  before : block.kind ≠ .openBlock → ∃ balance, ledgerBalance env fuel s block.previous = .ok balance
  collected : block.kind = .receiveBlock ∨ block.kind = .openBlock → ∃ amount, ledgerAmount env fuel s block.source = .ok amount

section Undo

-- `L` is the lattice without the block `h`, the store still agrees with `h` on top of it.
variable {env : Env} {L : Lattice} {h : Hash} {n : Note} {s : Store} {rank : Hash → Nat} {top : Nat}
  [HashesApart env] (consistent : Consistent env L) (attach : Attach env L h n) (agrees : Agrees (L.put h n) s)
  (ranked : Ranked rank top (L.put h n))

-- A balance that is returned was not computed at a contract block, and the tables changed so far do not matter to it.
include consistent attach ranked in
theorem balance_returned {enough : Prop} (s' : Store) (fuel : Nat) (x : Hash) (m : Note) (reads : Reads env (L.put h n) s)
    (reads' : Reads env (L.put h n) s') (checkpoints : s'.blocksInfo = s.blocksInfo) (stored : L.get x = some m)
    (computes : enough → ∃ balance, ledgerBalance env fuel s x = .ok balance) :
    Settles (ledgerBalance env fuel s' x) (Starved enough)
      fun value => (value = m.balance ∧ m.block.kind ≠ .sendBlockV2) ∧ ledgerBalance env fuel s x = .ok value := by
  have grown := consistent_attach consistent attach
  have kept := below_put L h n attach.fresh x m stored
  rw [ledger_balance_alike grown reads' reads (below_refl _) (fun y _ _ => congrArg (·.get y) checkpoints) fuel x m kept]
  refine settles_mono (settles_self (ledger_balance_settles grown ranked reads fuel kept) computes) (fun _ => id) ?_
  rintro value ⟨same, returned⟩
  refine ⟨⟨same, fun contract => ?_⟩, returned⟩
  rw [ledgerBalance, balance_contract env _ s x m grown reads kept contract] at returned
  cases returned

include consistent attach in
theorem digest_detach_later (before : Note) (stored : L.get n.block.previous = some before) (owner : n.account = before.account) :
    Lattice.digest (L.put h n) ^^^ h ^^^ n.block.previous = L.digest := by
  rw [digest_attach_later consistent attach before stored owner, BitVec.xor_assoc _ h h, BitVec.xor_self, BitVec.xor_zero,
    BitVec.xor_assoc, BitVec.xor_self, BitVec.xor_zero]

include consistent attach in
theorem digest_detach_open (opening : n.block.previous = 0) : Lattice.digest (L.put h n) ^^^ h = L.digest := by
  rw [digest_attach_open consistent attach opening, BitVec.xor_assoc, BitVec.xor_self, BitVec.xor_zero]

omit h n in
theorem del_put {L : Lattice} {h : Hash} {n : Note} (fresh : L.get h = none) : (L.put h n).del h = L := by
  apply Table.ext_get
  intro x
  rw [Table.get_del, Table.get_put]
  split
  · next same => rw [same, fresh]
  · rfl

include consistent attach in
theorem successor_clear (s' : Store) (before : Note) (stored : L.get n.block.previous = some before) (follows : Follows h n before)
    (legacy : before.block.kind ≠ .sendBlockV2) (holds : BlocksHold L (Lattice.succ (L.put h n)) s'.blocks) :
    ∃ blocks, blockSuccessorClear env s' n.block.previous = .ok { s' with blocks := blocks } ∧ BlocksHold L L.succ blocks := by
  obtain ⟨blocks, put, cleared⟩ := block_put_holds env L _ s' n.block.previous 0 before holds
    (fun m found => by rw [stored] at found; cases found; rfl) (consistent.hashed _ before stored) (Or.inl rfl)
    (stored_previous_ne consistent _ before stored) fun later => by
      obtain ⟨below, found, _⟩ := entry_before (stored_entry consistent _ before stored later) later
      simp [found]
  refine ⟨blocks, ?_, ?_⟩
  · rw [blockSuccessorClear, get_legacy holds _ before stored legacy, bind_ok, require_some, bind_ok]
    exact put
  · rw [Table.put_same L _ before stored] at cleared
    apply holds_congr _ _ _ _ cleared
    intro x m found
    have nonzero := stored_ne_zero consistent x m found
    by_cases end_ : x = n.block.previous
    · rw [if_pos end_, end_, succ_before consistent attach before stored follows.account]
    · rw [if_neg end_]
      by_cases link : x = before.block.previous
      · have later : before.block.kind ≠ .openBlock := fun opening => nonzero (link.trans (open_previous _ opening))
        rw [if_pos ⟨link, later⟩, link]
        exact (succ_of_child consistent stored rfl (link ▸ nonzero)).symm
      · rw [if_neg fun both => link both.1, succ_attach consistent attach x nonzero, if_neg end_]

include consistent attach in
theorem move_down (clock : Hash → Nat) (s' : Store) (time : Nat) (before : Note) (stored : L.get n.block.previous = some before)
    (follows : Follows h n before) (known : s'.accounts.get n.account = some (n.info h time))
    (checked : s'.checksum = Table.empty.put 0 (Lattice.digest (L.put h n)))
    (checkpoints : ∀ x, s'.blocksInfo.get x = Lattice.checkpoint (L.put h n) x) :
    changeLatest clock s' n.account n.block.previous before.repBlock before.balance (n.height - 1) = .ok { s' with
      accounts := s'.accounts.put n.account (before.info n.block.previous (clock n.block.previous))
      checksum := Table.empty.put 0 L.digest } := by
  have nonzero := stored_ne_zero consistent _ before stored
  have lower : n.height - 1 = before.height := by
    rw [follows.height]
    rfl
  have kept : (if before.height % blockInfoMax = 0 then s'.blocksInfo.put n.block.previous ⟨n.account, before.balance⟩
      else s'.blocksInfo) = s'.blocksInfo := by
    split
    · next due =>
        apply Table.put_same
        rw [checkpoints, checkpoint_some_iff]
        exact ⟨before, below_put L h n attach.fresh _ before stored, due, by rw [follows.account]⟩
    · rfl
  rw [change_latest_known clock s' _ _ _ _ _ _ _ checked known nonzero, movedLatest, lower, kept, Note.info_head,
    digest_detach_later consistent attach before stored follows.account, Note.info_openBlock, follows.openBlock]
  rfl

include consistent attach agrees in
theorem walks_removed (s' : Store) (holds : BlocksHold L (Lattice.succ (L.put h n)) s'.blocks)
    (checkpoints : s'.blocksInfo = s.blocksInfo) (frontiers : s'.frontiers = s.frontiers) : Walks (L.put h n) s' := by
  have before := agrees_walks agrees
  refine ⟨?_, ?_, ?_⟩
  · intro x m stored
    obtain ⟨rfl, rfl⟩ | old := Table.put_some L h x n m stored
    · rw [successor_absent holds x attach.fresh, (latest_attached consistent attach).2]
    · exact successor_stored holds x m old
  · rw [checkpoints]
    exact before.checkpoints
  · intro x m latest
    rw [frontierGet, frontiers]
    exact before.frontiers x m latest

include consistent attach agrees in
theorem undo_tail (s' : Store) (fault : Fault → Prop) (time : Nat) (before : Note) (stored : L.get n.block.previous = some before)
    (follows : Follows h n before) (legacy : before.block.kind ≠ .sendBlockV2)
    (holds : BlocksHold L (Lattice.succ (L.put h n)) s'.blocks)
    (accounts : s'.accounts = s.accounts.put n.account (before.info n.block.previous time)) (frontiers : s'.frontiers = s.frontiers)
    (checkpoints : s'.blocksInfo = s.blocksInfo) (checksum : s'.checksum = Table.empty.put 0 L.digest)
    (unchecked : s'.unchecked = s.unchecked) (cache : s'.uncheckedCache = s.uncheckedCache) (codes : s'.vmCodes = s.vmCodes)
    (pending : ∀ key, s'.pending.get key = L.pending key) (weights : ∀ r, representationGet s' r = L.weight r) :
    Settles (do
        let removed ← frontierDel s' h
        let cleared ← blockSuccessorClear env (frontierPut removed n.block.previous n.account) n.block.previous
        if n.height % blockInfoMax = 0 then blockInfoDel cleared h else .ok cleared) fault (Becomes L s) := by
  have row := frontier_row agrees h n (latest_attached consistent attach)
  rw [← frontiers] at row
  refine settles_step (frontier_del_ok _ row) ?_
  obtain ⟨blocks, cleared, agreed⟩ := successor_clear consistent attach
    (frontierPut { s' with frontiers := s'.frontiers.del h } n.block.previous n.account) before stored follows legacy holds
  refine settles_step cleared ?_
  have marked := checkpoints_detach attach s'.blocksInfo (by rw [checkpoints]; exact agrees.checkpoints)
  have finished : Becomes L s { frontierPut { s' with frontiers := s'.frontiers.del h } n.block.previous n.account with
      blocks := blocks, blocksInfo := if n.height % blockInfoMax = 0 then s'.blocksInfo.del h else s'.blocksInfo } := by
    refine ⟨⟨agreed, ?_, ?_, pending, marked, weights, checksum⟩, unchecked, cache, codes⟩
    · have moved := accounts_detach_later consistent attach _ time before agrees.accounts stored follows.account
      rwa [← accounts] at moved
    · have ends := frontiers_detach_later consistent attach _ before agrees.frontiers stored follows.account
      rwa [← frontiers] at ends
  by_cases due : n.height % blockInfoMax = 0
  · have present : s'.blocksInfo.get h = some ⟨n.account, n.balance⟩ := by
      rw [checkpoints, agrees.checkpoints, checkpoint_attach attach, if_pos ⟨rfl, due⟩]
    rw [if_pos due] at finished
    rw [if_pos due, blockInfoDel, mdbDel]
    simp only [frontierPut, present, bind_ok, settles_ok]
    exact finished
  · rw [if_neg due] at finished
    rw [if_neg due, settles_ok]
    exact finished

theorem weight_cancels (weight gained lost : Amount) (mine : Prop) [Decidable mine] (cancel : gained + lost = 0) :
    weight + (if mine then gained else 0) + (if mine then lost else 0) = weight := by
  split
  · rw [add_assoc, cancel, add_zero]
  · rw [add_zero, add_zero]

section Kinds

variable (clock : Hash → Nat) (fuel : Nat)

include ranked in
theorem enough_walk (enough : 4 * top ≤ fuel) : top + 1 ≤ fuel := by
  have within := ranked.within h n (Table.get_put_self L h n)
  omega

include consistent attach ranked in
theorem representative_found {also : Prop} {next : Hash → Hash} (s' : Store) (x : Hash) (m : Note)
    (holds : BlocksHold (L.put h n) next s'.blocks) (stored : (L.put h n).get x = some m) :
    Settles (ledgerRepresentative env fuel s' x) (Starved (also ∧ 4 * top ≤ fuel)) (· = m.repBlock) := by
  have grown := consistent_attach consistent attach
  have low := height_le_top grown ranked x m stored
  exact settles_enough (ledger_representative_settles grown holds fuel x m stored) fun enough => by omega

include consistent attach ranked in
theorem account_found {also : Prop} (s' : Store) (x : Hash) (m : Note) (walks : Walks (L.put h n) s')
    (stored : (L.put h n).get x = some m) (present : blockExists s' x = true) :
    Settles (ledgerAccount fuel s' x) (Starved (also ∧ 4 * top ≤ fuel)) (· = m.account) :=
  settles_enough (ledger_account_settles (consistent_attach consistent attach) ranked walks fuel x m stored present)
    fun enough => enough_walk ranked fuel enough.2

omit [HashesApart env] in
include attach in
theorem block_removed {next : Hash → Hash} (s' : Store) (fault : Fault → Prop) (holds : BlocksHold (L.put h n) next s'.blocks) :
    Settles (blockDel s' h) fault fun out => ∃ blocks, out = { s' with blocks := blocks } ∧ BlocksHold L next blocks := by
  obtain ⟨blocks, deleted, left⟩ := block_del_holds (L.put h n) next s' h n holds (Table.get_put_self L h n)
  rw [deleted, settles_ok]
  rw [del_put attach.fresh] at left
  exact ⟨blocks, rfl, left⟩

include consistent attach agrees ranked

theorem undo_send_settles (previous : Hash) (destination : Account) (balance : Amount)
    (fields : n.block.hashables = .sendBlock previous destination balance) :
    Settles (undoSend env fuel clock s n.block previous destination ⟨n.account, n.amount⟩)
      (Starved (Computes env fuel s n.block ∧ 4 * top ≤ fuel)) fun s' => Becomes L s s' ∧ Computes env fuel s n.block := by
  have grown := consistent_attach consistent attach
  have kind : n.block.kind = .sendBlock := by simp [Block.kind, fields]
  have prior : n.block.previous = previous := by simp [Block.previous, fields]
  have latest := latest_attached consistent attach
  have entry := attach.entry
  simp only [Entry, fields] at entry
  obtain ⟨before, stored, _, same⟩ := entry
  have follows : Follows h n before :=
    follows_follow h n before _ _ _ same (by simp [kind])
  subst prior
  obtain ⟨m, repStored, _, _, _, named, _⟩ := rep_block_stored consistent stored
  have repKept := below_put L h n attach.fresh _ m repStored
  have inherits := follows.inherits (by simp [kind])
  obtain ⟨time, known⟩ := account_latest grown agrees h n latest
  have waiting : s.pending.get ⟨destination, h⟩ = some ⟨n.account, n.amount⟩ := by
    rw [agrees.pending, pending_attach consistent attach]
    simp [Block.recipient, fields]
  rw [undoSend, attach.hashed, known, require_some, bind_ok]
  refine settles_step (pending_del_ok _ _ _ waiting) ?_
  refine settles_value (representative_found consistent attach ranked fuel _ h n agrees.blocks latest.1) ?_
  rw [inherits]
  refine settles_step (representation_add_ok _ _ _ m agrees.blocks repKept named) ?_
  have reads : Reads env (L.put h n) s := agrees_reads grown agrees
  refine settles_bind (balance_returned consistent attach ranked _ fuel _ before reads
    ⟨reads.blocks, reads.issuer, reads.checkpoints⟩ rfl stored fun enough => enough.1.before (by simp [kind])) ?_
  rintro _ ⟨⟨rfl, legacy⟩, read⟩
  simp only [Note.info_repBlock, Note.info_blockCount, inherits]
  refine settles_step (move_down consistent attach clock _ time before stored follows known agrees.checksum agrees.checkpoints) ?_
  refine settles_bind (block_removed attach _ _ agrees.blocks) ?_
  rintro _ ⟨blocks, rfl, holds⟩
  have computes : Computes env fuel s n.block := ⟨fun _ => ⟨_, read⟩, by simp [kind]⟩
  refine settles_with
    (undo_tail consistent attach agrees _ _ (clock n.block.previous) before stored follows legacy holds rfl rfl rfl rfl rfl
    rfl rfl (pending_detach_send consistent attach _ destination agrees.pending (by simp [Block.recipient, fields])) ?_) computes
  intro r
  have value : n.balance = balance := (congrArg Note.balance same :)
  have drop : n.amount = before.balance - balance := (congrArg Note.amount same :)
  refine (representation_get_add s _ r _).trans ?_
  rw [agrees.weights, weight_inherit consistent attach before m stored follows.account inherits repStored r]
  apply weight_cancels
  rw [value, drop]
  ring

theorem undo_receive_settles (previous source : Hash) (fields : n.block.hashables = .receiveBlock previous source) :
    Settles (undoReceive env fuel clock s n.block previous source)
      (Starved (Computes env fuel s n.block ∧ 4 * top ≤ fuel)) fun s' => Becomes L s s' ∧ Computes env fuel s n.block := by
  have grown := consistent_attach consistent attach
  have kind : n.block.kind = .receiveBlock := by simp [Block.kind, fields]
  have prior : n.block.previous = previous := by simp [Block.previous, fields]
  have spent : n.block.source = source := by simp [Block.source, fields]
  have latest := latest_attached consistent attach
  have entry := attach.entry
  simp only [Entry, fields] at entry
  obtain ⟨before, sent, stored, sentTo, same⟩ := entry
  have follows : Follows h n before :=
    follows_follow h n before _ _ _ same (by simp [kind])
  subst prior spent
  rw [← follows.account] at sentTo
  have kept := below_put L h n attach.fresh
  obtain ⟨m, repStored, _, _, _, named, _⟩ := rep_block_stored consistent stored
  have inherits := follows.inherits (by simp [kind])
  obtain ⟨time, known⟩ := account_latest grown agrees h n latest
  have reads : Reads env (L.put h n) s := agrees_reads grown agrees
  rw [undoReceive, attach.hashed]
  refine settles_value (representative_found consistent attach ranked fuel _ _ before agrees.blocks (kept _ before stored)) ?_
  refine settles_bind (settles_self (ledger_amount_settles grown ranked reads fuel _ sent (kept _ sent sentTo.1))
    fun enough => enough.1.collected (Or.inl kind)) ?_
  rintro _ ⟨rfl, paid⟩
  refine settles_value (account_found consistent attach ranked fuel _ h n (agrees_walks agrees) latest.1
    (exists_stored agrees.blocks latest.1)) ?_
  rw [known, require_some, bind_ok]
  refine settles_value (representative_found consistent attach ranked fuel _ h n agrees.blocks latest.1) ?_
  rw [inherits]
  refine settles_step (representation_add_ok _ _ _ m agrees.blocks (kept _ m repStored) named) ?_
  refine settles_bind (balance_returned consistent attach ranked _ fuel _ before reads
    ⟨reads.blocks, reads.issuer, reads.checkpoints⟩ rfl stored fun enough => enough.1.before (by simp [kind])) ?_
  rintro _ ⟨⟨rfl, legacy⟩, read⟩
  simp only [Note.info_blockCount]
  refine settles_step (move_down consistent attach clock _ time before stored follows known agrees.checksum agrees.checkpoints) ?_
  refine settles_bind (block_removed attach _ _ agrees.blocks) ?_
  rintro _ ⟨blocks, rfl, holds⟩
  -- The sender is found by a walk that may still pass over the removed block.
  refine settles_value (account_found consistent attach ranked fuel _ _ sent
    (walks_removed consistent attach agrees _ holds rfl rfl) (kept _ sent sentTo.1) (exists_stored holds sentTo.1)) ?_
  have computes : Computes env fuel s n.block := ⟨fun _ => ⟨_, read⟩, fun _ => ⟨_, paid⟩⟩
  refine settles_with
    (undo_tail consistent attach agrees _ _ (clock n.block.previous) before stored follows legacy holds rfl rfl rfl rfl rfl
    rfl rfl (pending_detach_receive consistent attach _ sent agrees.pending (by simp [Block.recipient, fields]) sentTo) ?_) computes
  intro r
  have value : n.balance = before.balance + sent.amount := (congrArg Note.balance same :)
  refine (representation_get_add s _ r _).trans ?_
  rw [agrees.weights, weight_inherit consistent attach before m stored follows.account inherits repStored r]
  apply weight_cancels
  rw [value]
  ring

theorem undo_open_settles (source : Hash) (representative account : Account)
    (fields : n.block.hashables = .openBlock source representative account) :
    Settles (undoOpen env fuel clock s n.block source) (Starved (Computes env fuel s n.block ∧ 4 * top ≤ fuel))
      fun s' => Becomes L s s' ∧ Computes env fuel s n.block := by
  have grown := consistent_attach consistent attach
  have kind : n.block.kind = .openBlock := by simp [Block.kind, fields]
  have spent : n.block.source = source := by simp [Block.source, fields]
  have first : n.block.previous = 0 := by simp [Block.previous, fields]
  have latest := latest_attached consistent attach
  have entry := attach.entry
  simp only [Entry, fields] at entry
  obtain ⟨named, _, sent, sentTo, same⟩ := entry
  have owner : n.account = account := (congrArg Note.account same :)
  have own : n.repBlock = h := (congrArg Note.repBlock same :)
  subst spent owner
  have kept := below_put L h n attach.fresh
  have stands : n.block.representative ≠ 0 := by simpa [Block.representative, fields] using named
  obtain ⟨time, known⟩ := account_latest grown agrees h n latest
  have reads : Reads env (L.put h n) s := agrees_reads grown agrees
  rw [undoOpen, attach.hashed]
  refine settles_bind (settles_self (ledger_amount_settles grown ranked reads fuel _ sent (kept _ sent sentTo.1))
    fun enough => enough.1.collected (Or.inr kind)) ?_
  rintro _ ⟨rfl, paid⟩
  refine settles_value (account_found consistent attach ranked fuel _ h n (agrees_walks agrees) latest.1
    (exists_stored agrees.blocks latest.1)) ?_
  refine settles_value (representative_found consistent attach ranked fuel _ h n agrees.blocks latest.1) ?_
  rw [own]
  refine settles_step (representation_add_ok _ _ _ n agrees.blocks latest.1 stands) ?_
  refine settles_step (change_latest_gone clock _ _ _ _ _ (Lattice.digest (L.put h n)) _ agrees.checksum known) ?_
  refine settles_bind (block_removed attach _ _ agrees.blocks) ?_
  rintro _ ⟨blocks, rfl, holds⟩
  refine settles_value (account_found consistent attach ranked fuel _ _ sent
    (walks_removed consistent attach agrees _ holds rfl rfl) (kept _ sent sentTo.1) (exists_stored holds sentTo.1)) ?_
  have computes : Computes env fuel s n.block := ⟨fun later => absurd kind later, fun _ => ⟨_, paid⟩⟩
  refine settles_with (settles_last (frontier_del_ok _ (frontier_row agrees h n latest)) ?_) computes
  have untouched : ∀ x m, L.get x = some m → Lattice.succ (L.put h n) x = L.succ x := by
    intro x m stored
    have nonzero := stored_ne_zero consistent x m stored
    rw [succ_attach consistent attach x nonzero, if_neg fun covered => nonzero (covered.trans first)]
  have unmarked : ∀ x, s.blocksInfo.get x = L.checkpoint x := by
    intro x
    have level : n.height = 1 := (congrArg Note.height same :)
    have plain := checkpoints_detach attach s.blocksInfo agrees.checkpoints x
    rwa [level, if_neg (by decide)] at plain
  refine ⟨⟨holds_congr _ _ _ _ holds untouched, accounts_detach_open consistent attach _ agrees.accounts first,
    frontiers_detach_open consistent attach _ agrees.frontiers first,
    pending_detach_receive consistent attach _ sent agrees.pending (by simp [Block.recipient, fields]) sentTo,
    unmarked, ?_, ?_⟩, rfl, rfl, rfl⟩
  · intro r
    have value : n.balance = sent.amount := (congrArg Note.balance same :)
    refine (representation_get_add s _ r _).trans ?_
    rw [agrees.weights, weight_open consistent attach first own r]
    apply weight_cancels
    rw [value]
    ring
  · exact congrArg (Table.empty.put 0) (digest_detach_open consistent attach first)

theorem undo_change_settles (previous : Hash) (representative : Account)
    (fields : n.block.hashables = .changeBlock previous representative) :
    Settles (undoChange env fuel clock s n.block previous) (Starved (Computes env fuel s n.block ∧ 4 * top ≤ fuel))
      fun s' => Becomes L s s' ∧ Computes env fuel s n.block := by
  have grown := consistent_attach consistent attach
  have kind : n.block.kind = .changeBlock := by simp [Block.kind, fields]
  have prior : n.block.previous = previous := by simp [Block.previous, fields]
  have latest := latest_attached consistent attach
  have entry := attach.entry
  simp only [Entry, fields] at entry
  obtain ⟨stands, before, stored, same⟩ := entry
  obtain ⟨_, found, follows⟩ := entry_before attach.entry (by simp [kind])
  rw [prior, stored] at found
  cases found
  subst prior
  have kept := below_put L h n attach.fresh
  obtain ⟨m, repStored, _, _, _, named, _⟩ := rep_block_stored consistent stored
  have own : n.repBlock = h := (congrArg Note.repBlock same :)
  have value : n.balance = before.balance := (congrArg Note.balance same :)
  have chosen : n.block.representative ≠ 0 := by simpa [Block.representative, fields] using stands
  obtain ⟨time, known⟩ := account_latest grown agrees h n latest
  have reads : Reads env (L.put h n) s := agrees_reads grown agrees
  rw [undoChange, attach.hashed]
  refine settles_value (representative_found consistent attach ranked fuel _ _ before agrees.blocks (kept _ before stored)) ?_
  refine settles_value (account_found consistent attach ranked fuel _ _ before (agrees_walks agrees) (kept _ before stored)
    (exists_stored agrees.blocks (kept _ before stored))) ?_
  rw [← follows.account, known, require_some, bind_ok]
  refine settles_bind (balance_returned consistent attach ranked _ fuel _ before reads reads rfl stored
    fun enough => enough.1.before (by simp [kind])) ?_
  rintro _ ⟨⟨rfl, legacy⟩, read⟩
  refine settles_step (representation_add_ok _ _ _ m agrees.blocks (kept _ m repStored) named) ?_
  refine settles_step (representation_add_ok _ _ _ n agrees.blocks latest.1 chosen) ?_
  refine settles_bind (block_removed attach _ _ agrees.blocks) ?_
  rintro _ ⟨blocks, rfl, holds⟩
  simp only [Note.info_balance, Note.info_blockCount, value]
  refine settles_step (move_down consistent attach clock _ time before stored follows known agrees.checksum agrees.checkpoints) ?_
  have computes : Computes env fuel s n.block := ⟨fun _ => ⟨_, read⟩, by simp [kind]⟩
  refine settles_with
    (undo_tail consistent attach agrees _ _ (clock n.block.previous) before stored follows legacy holds rfl rfl rfl rfl rfl
    rfl rfl (pending_detach_other consistent attach _ agrees.pending (by simp [Block.recipient, fields])
      (by simp [Block.source, fields])) ?_) computes
  intro r
  refine (representation_get_add _ _ r _).trans ?_
  refine (congrArg (· + _) (representation_get_add s _ r _)).trans ?_
  rw [agrees.weights, weight_change consistent attach before m stored follows.account own repStored r, value]
  split_ifs <;> ring

end Kinds

end Undo

end Rai
