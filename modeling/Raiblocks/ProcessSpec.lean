import Raiblocks.Agree

set_option autoImplicit false

namespace Rai

open Kit

inductive Refused (env : Env) (L : Lattice) (block : Block) : ProcessResult → Prop where
  | old (present : L.get (block.hash env) ≠ none) : Refused env L block .old
  | gapPrevious (later : block.kind ≠ .openBlock) (absent : L.get block.previous = none) : Refused env L block .gapPrevious
  | gapSource (spends : block.kind = .receiveBlock ∨ block.kind = .openBlock) (absent : L.get block.source = none) :
      Refused env L block .gapSource
  | fork (before : Note) (later : block.kind ≠ .openBlock) (stored : L.get block.previous = some before)
      (covered : L.succ block.previous ≠ 0) : Refused env L block .fork
  | opened (source : Hash) (representative : Account) (x : Hash) (m : Note) (stored : L.get x = some m)
      (fields : block.hashables = .openBlock source representative m.account) : Refused env L block .fork
  | badSignature (before : Note) (later : block.kind ≠ .openBlock) (stored : L.get block.previous = some before)
      (bad : env.validateMessage before.account (block.hash env) block.signature = true) : Refused env L block .badSignature
  | badOpening (source : Hash) (representative account : Account) (fields : block.hashables = .openBlock source representative account)
      (bad : env.validateMessage account (block.hash env) block.signature = true) : Refused env L block .badSignature
  | overspend (previous : Hash) (destination : Account) (balance : Amount) (before : Note)
      (fields : block.hashables = .sendBlock previous destination balance) (stored : L.get previous = some before)
      (short : ¬ balance ≤ before.balance) : Refused env L block .overspend
  | unreceivable (previous source : Hash) (before : Note) (fields : block.hashables = .receiveBlock previous source)
      (stored : L.get previous = some before) (present : L.get source ≠ none) (nothing : L.pending ⟨before.account, source⟩ = none) :
      Refused env L block .unreceivable
  | unopenable (source : Hash) (representative account : Account) (fields : block.hashables = .openBlock source representative account)
      (present : L.get source ≠ none) (nothing : L.pending ⟨account, source⟩ = none) : Refused env L block .unreceivable
  | openedBurnAccount (source : Hash) (representative : Account)
      (fields : block.hashables = .openBlock source representative burnAccount) : Refused env L block .openedBurnAccount

def Exact (L : Lattice) (s : Store) : Prop :=
  ∀ r, s.representation.get r ≠ none ↔ r ≠ 0 ∧ ∃ x m, L.get x = some m ∧ m.block.representative = r

structure Accepted (env : Env) (L : Lattice) (s : Store) (block : Block) (n : Note) (out : Store × ProcessReturn) : Prop where
  carries : n.block = block
  attach : Attach env L (block.hash env) n
  agrees : Agrees (L.put (block.hash env) n) out.1
  exact : Exact L s → Exact (L.put (block.hash env) n) out.1
  unchecked : out.1.unchecked = s.unchecked
  cache : out.1.uncheckedCache = s.uncheckedCache
  codes : block.kind ≠ .sendBlockV2 → out.1.vmCodes = s.vmCodes
  code : out.2.code = .progress
  account : out.2.account = n.account
  amount : block.kind ≠ .sendBlockV2 → out.2.amount = n.amount

def Processed (env : Env) (L : Lattice) (s : Store) (block : Block) (out : Store × ProcessReturn) : Prop :=
  (∃ n, Accepted env L s block n out) ∨ out.1 = s ∧ Refused env L block out.2.code

-- The load that a contract block asks for comes back within the fuel.
def Block.loads (env : Env) (fuel : Nat) (block : Block) : Bool :=
  match block.hashables with
  | .sendBlockV2 _ _ action => env.loads fuel action
  | _ => true

def Block.LoadReturns (env : Env) (block : Block) : Prop := ∃ fuel, block.loads env fuel = true

theorem legacy_loads (env : Env) (fuel : Nat) (block : Block) (legacy : block.kind ≠ .sendBlockV2) : block.loads env fuel = true := by
  unfold Block.loads
  split
  · next fields => exact absurd (by simp [Block.kind, fields]) legacy
  · rfl

theorem loads_later (env : Env) (fuel more : Nat) (block : Block) (loads : block.loads env fuel = true) (enough : fuel ≤ more) :
    block.loads env more = true := by
  unfold Block.loads at loads ⊢
  split at loads
  · obtain ⟨steps, runs, within⟩ := (Option.any_eq_true _ _).mp loads
    exact (Option.any_eq_true _ _).mpr ⟨steps, runs, decide_eq_true (Nat.le_trans (of_decide_eq_true within) enough)⟩
  · rfl

def NamesNobody (block : Block) : Prop :=
  (block.kind = .openBlock ∨ block.kind = .changeBlock) ∧ block.representative = 0

section Refusals

variable {env : Env} {M L : Lattice} (upper : Consistent env M) (lower : Consistent env L) (below : Below L M)

include upper below in
theorem place_free (h : Hash) (n : Note) (stored : M.get h = some n) (fresh : L.get h = none) (x : Hash) (m : Note)
    (found : L.get x = some m) (owner : n.account = m.account) : n.block.previous ≠ m.block.previous := by
  intro same
  have here := upper.chain h n x m stored (below x m found) owner same
  rw [here, found] at fresh
  cases fresh

include upper below in
theorem source_waits [HashesApart env] (h : Hash) (n sent : Note) (stored : M.get h = some n) (fresh : L.get h = none)
    (sentTo : SentTo M n.block.source n.account sent) (present : L.get n.block.source ≠ none) :
    L.pending ⟨n.account, n.block.source⟩ ≠ none := by
  have kept := kept_below L M _ sent below sentTo.1 present
  have unspent : ¬ L.Received n.block.source := by
    rintro ⟨c, m, found, spent⟩
    have here := upper.once h n c m stored (below c m found) spent.symm (stored_ne_zero upper _ sent sentTo.1)
    rw [here, found] at fresh
    cases fresh
  rw [(pending_some_iff ⟨n.account, n.block.source⟩ _).mpr ⟨sent, ⟨kept, sentTo.2⟩, unspent, rfl⟩]
  exact Option.some_ne_none _

include upper lower below in
theorem refused_below [HashesApart env] (n : Note) (code : ProcessResult) (stored : M.get (n.block.hash env) = some n)
    (fresh : L.get (n.block.hash env) = none) (refused : Refused env L n.block code) :
    code = .gapPrevious ∧ M.get n.block.previous ≠ none ∧ L.get n.block.previous = none ∨
      code = .gapSource ∧ M.get n.block.source ≠ none ∧ L.get n.block.source = none := by
  have later : n.block.hash env ≠ genesisHash env := by
    intro atGenesis
    exact genesis_present lower (atGenesis ▸ fresh)
  have entry := upper.entry _ n stored later
  have signed := upper.signed _ n stored later
  cases refused with
  | old present => exact absurd fresh present
  | gapPrevious continues absent =>
      obtain ⟨before, present, _⟩ := entry_before entry continues
      exact Or.inl ⟨rfl, by simp [present], absent⟩
  | gapSource spends absent =>
      obtain ⟨sent, sentTo, _⟩ := entry_spends M _ n entry spends
      exact Or.inr ⟨rfl, by simp [sentTo.1], absent⟩
  | fork before continues present covered =>
      obtain ⟨m, found, above⟩ := succ_child L _ covered
      obtain ⟨k, kept, follows⟩ := entry_before entry continues
      obtain ⟨k', kept', follows'⟩ := stored_before lower found (above ▸ stored_ne_zero lower _ before present)
      rw [above] at kept'
      cases kept.symm.trans (below _ k' kept')
      exact absurd above.symm (place_free upper below _ n stored fresh _ m found (follows.account.trans follows'.account.symm))
  | opened source representative x m found fields =>
      obtain ⟨owner, _⟩ := entry_opening M _ n entry _ _ _ fields
      obtain ⟨y, k, first, mate, level, _⟩ := ancestor_at lower x m 1 found Nat.one_pos (height_pos lower found)
      have bottom := (open_height lower first).mp level
      refine absurd ?_ (place_free upper below _ n stored fresh y k first (owner.trans mate.symm))
      rw [bottom]
      simp [Block.previous, fields]
  | badSignature before continues present bad =>
      obtain ⟨k, kept, follows⟩ := entry_before entry continues
      cases kept.symm.trans (below _ before present)
      rw [← follows.account, signed] at bad
      cases bad
  | badOpening source representative account fields bad =>
      obtain ⟨owner, _⟩ := entry_opening M _ n entry _ _ _ fields
      rw [← owner, signed] at bad
      cases bad
  | overspend previous destination balance before fields present short =>
      obtain ⟨k, kept, covered, _⟩ := stored_send upper stored fields
      cases kept.symm.trans (below _ before present)
      exact absurd covered short
  | unreceivable previous source before fields present named nothing =>
      obtain ⟨k, sent, kept, sentTo, _⟩ := stored_receive upper stored fields
      obtain ⟨k', kept', follows⟩ := entry_before entry (by simp [Block.kind, fields])
      have prior : n.block.previous = previous := by simp [Block.previous, fields]
      have spent : n.block.source = source := by simp [Block.source, fields]
      rw [prior] at kept'
      cases kept.symm.trans kept'
      cases kept.symm.trans (below _ before present)
      rw [← follows.account, ← spent] at sentTo nothing
      exact absurd nothing (source_waits upper below _ n sent stored fresh sentTo (spent ▸ named))
  | unopenable source representative account fields named nothing =>
      obtain ⟨owner, _, sent, sentTo⟩ := entry_opening M _ n entry _ _ _ fields
      have spent : n.block.source = source := by simp [Block.source, fields]
      rw [← owner, ← spent] at sentTo nothing
      exact absurd nothing (source_waits upper below _ n sent stored fresh sentTo (spent ▸ named))
  | openedBurnAccount source representative fields =>
      exact absurd rfl (entry_opening M _ n entry _ _ _ fields).2.1

end Refusals

theorem refused_not_attach (env : Env) (L : Lattice) (n : Note) (code : ProcessResult) [HashesApart env]
    (consistent : Consistent env L) (refused : Refused env L n.block code) : ¬ Attach env L (n.block.hash env) n := by
  intro attach
  have grown := consistent_attach consistent attach
  have missing := refused_below grown consistent (below_put L _ n attach.fresh) n code (Table.get_put_self L _ n) attach.fresh refused
  obtain ⟨_, present, absent⟩ | ⟨_, present, absent⟩ := missing
  · rw [Table.get_put_ne L _ _ n (attach_previous_ne attach)] at present
    exact present absent
  · rw [Table.get_put_ne L _ _ n (attach_source_ne attach)] at present
    exact present absent

theorem exact_attach (L : Lattice) (s s' : Store) (h : Hash) (n : Note) (fresh : L.get h = none) (exact : Exact L s)
    (grew : ∀ r, s'.representation.get r ≠ none ↔ s.representation.get r ≠ none ∨ r ≠ 0 ∧ n.block.representative = r) :
    Exact (L.put h n) s' := by
  intro r
  rw [grew r, exact r]
  constructor
  · rintro (⟨nonzero, x, m, stored, named⟩ | ⟨nonzero, named⟩)
    · exact ⟨nonzero, x, m, below_put L h n fresh x m stored, named⟩
    · exact ⟨nonzero, h, n, Table.get_put_self L h n, named⟩
  · rintro ⟨nonzero, x, m, stored, named⟩
    obtain ⟨_, rfl⟩ | old := Table.put_some L h x n m stored
    · exact Or.inr ⟨nonzero, named⟩
    · exact Or.inl ⟨nonzero, x, m, old, named⟩

theorem exact_unnamed (L : Lattice) (s s' : Store) (h : Hash) (n : Note) (fresh : L.get h = none) (exact : Exact L s)
    (nobody : n.block.representative = 0) (same : ∀ r, s'.representation.get r ≠ none ↔ s.representation.get r ≠ none) :
    Exact (L.put h n) s' := by
  refine exact_attach L s s' h n fresh exact fun r => (same r).trans (or_iff_left ?_).symm
  rw [nobody]
  exact fun both => both.1 both.2.symm

theorem exact_named (L : Lattice) (s : Store) (exact : Exact L s) (x : Hash) (m : Note) (stored : L.get x = some m)
    (named : m.block.representative ≠ 0) : s.representation.get m.block.representative ≠ none :=
  (exact _).mpr ⟨named, x, m, stored, rfl⟩

-- One lemma for each operation a block may trigger, over any state in which it succeeds.
section Steps

theorem representation_get_add (s : Store) (q r : Account) (amount : Amount) :
    representationGet (representationPut s q (representationGet s q + amount)) r =
      representationGet s r + if r = q then amount else 0 := by
  simp only [representationGet, representationPut, Table.get_put]
  split
  · next same => rw [same, Option.getD_some]
  · exact (add_zero _).symm

section Weights

-- The block whose weight moves is read back from the tables.
variable {L : Lattice} {next : Hash → Hash} (s : Store) (x : Hash) (amount : Amount) (m : Note)
  (holds : BlocksHold L next s.blocks) (stored : L.get x = some m)
include holds stored

theorem representation_add_ok (named : m.block.representative ≠ 0) :
    representationAdd s x amount = .ok (representationPut s m.block.representative
      (representationGet s m.block.representative + amount)) := by
  have legacy : m.block.kind ≠ .sendBlockV2 := by
    intro contract
    obtain ⟨⟨hashables, signature, work⟩, account, openBlock, repBlock, height, balance, sum⟩ := m
    cases hashables <;> first | exact named rfl | cases contract
  rw [representationAdd, get_legacy holds x m stored legacy, bind_ok, require_some, bind_ok, ensure_true _ named, bind_ok]

theorem representation_add_nobody (nobody : NamesNobody m.block) : representationAdd s x amount = .error .abort := by
  have legacy : m.block.kind ≠ .sendBlockV2 := by
    intro contract
    obtain opening | changing := nobody.1
    · rw [contract] at opening
      cases opening
    · rw [contract] at changing
      cases changing
  rw [representationAdd, get_legacy holds x m stored legacy, bind_ok, require_some, bind_ok]
  simp [ensure, nobody.2]

end Weights

theorem frontier_del_ok (s : Store) {x : Hash} {account : Account} (present : s.frontiers.get x = some account) :
    frontierDel s x = .ok { s with frontiers := s.frontiers.del x } := by
  rw [frontierDel, mdbDel, present, bind_ok]

theorem pending_del_ok (s : Store) (key : PendingKey) (info : PendingInfo) (present : s.pending.get key = some info) :
    pendingDel s key = .ok { s with pending := s.pending.del key } := by
  rw [pendingDel, mdbDel, present, bind_ok]

theorem checksum_update_ok (s : Store) (value hash : Hash) (present : s.checksum = Table.empty.put 0 value) :
    checksumUpdate s hash = .ok { s with checksum := Table.empty.put 0 (value ^^^ hash) } := by
  rw [checksumUpdate, checksumGet, present, Table.get_put_self, require_some, bind_ok, checksumPut, present, Table.put_put]

section Latest

variable (clock : Hash → Nat) (s : Store) (account : Account) (hash repBlock : Hash) (balance : Amount) (blockCount : Nat)
  (value : Hash)

def movedLatest (info : AccountInfo) : Store :=
  { s with
    accounts := s.accounts.put account ⟨hash, repBlock, info.openBlock, balance, clock hash, blockCount⟩
    blocksInfo := if blockCount % blockInfoMax = 0 then s.blocksInfo.put hash ⟨account, balance⟩ else s.blocksInfo
    checksum := Table.empty.put 0 (value ^^^ info.head ^^^ hash) }

theorem change_latest_known (info : AccountInfo) (checked : s.checksum = Table.empty.put 0 value)
    (known : s.accounts.get account = some info) (proper : hash ≠ 0) :
    changeLatest clock s account hash repBlock balance blockCount =
      .ok (movedLatest clock s account hash repBlock balance blockCount value info) := by
  simp only [changeLatest, known, checksum_update_ok s value info.head checked, bind_ok, ne_eq, proper, not_false_eq_true, if_true]
  by_cases due : blockCount % blockInfoMax = 0
  · rw [if_pos due, checksum_update_ok _ (value ^^^ info.head) hash rfl]
    simp [movedLatest, due, accountPut, blockInfoPut]
  · rw [if_neg due, checksum_update_ok _ (value ^^^ info.head) hash rfl]
    simp [movedLatest, due, accountPut]

theorem change_latest_new (block : Block) (checked : s.checksum = Table.empty.put 0 value) (unknown : s.accounts.get account = none)
    (stored : blockGet s hash = .ok (some block)) (opening : block.kind = .openBlock) (proper : hash ≠ 0)
    (single : blockCount % blockInfoMax ≠ 0) :
    changeLatest clock s account hash repBlock balance blockCount = .ok { s with
      accounts := s.accounts.put account ⟨hash, repBlock, hash, balance, clock hash, blockCount⟩
      checksum := Table.empty.put 0 (value ^^^ hash) } := by
  simp only [changeLatest, unknown, stored, bind_ok, require_some, ensure_true _ opening, ne_eq, proper, not_false_eq_true, if_true]
  rw [if_neg single]
  exact checksum_update_ok (accountPut s account _) value hash checked

theorem change_latest_gone (info : AccountInfo) (checked : s.checksum = Table.empty.put 0 value)
    (known : s.accounts.get account = some info) :
    changeLatest clock s account 0 repBlock balance blockCount = .ok { s with
      accounts := s.accounts.del account
      checksum := Table.empty.put 0 (value ^^^ info.head) } := by
  simp only [changeLatest, known, checksum_update_ok s value info.head checked, bind_ok, ne_eq, not_true_eq_false, if_false]
  rw [accountDel, mdbDel]
  simp only [known, bind_ok]

end Latest

end Steps

end Rai
