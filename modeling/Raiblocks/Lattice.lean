import Mathlib.Data.Finset.Max
import Mathlib.Logic.Relation
import Raiblocks.Block
import Raiblocks.Kit.Table

set_option autoImplicit false

namespace Rai

open Kit

-- What the ledger is for: a forest of account chains joined by sends and their
-- receipts. A note records a block with what it means where it stands.
structure Note where
  block : Block
  account : Account
  openBlock : Hash
  repBlock : Hash
  height : Nat
  balance : Amount
  amount : Amount
deriving DecidableEq

abbrev Lattice := Table Hash Note

def Note.follow (before : Note) (block : Block) (balance amount : Amount) : Note :=
  { before with block := block, height := before.height + 1, balance := balance, amount := amount }

-- The first block of all. Its signature and work are no part of what it means.
def genesisNote (env : Env) (stamp : Signature × Work) : Note :=
  ⟨⟨(genesisOpen env.network).hashables, stamp.1, stamp.2⟩, genesisAccount env.network, genesisHash env, genesisHash env, 1,
    genesisAmount, genesisAmount⟩

def genesisStamp (network : Network) : Signature × Work := (genesisSignature network, genesisWork network)

-- Who may collect what a block sends; only a plain send has an amount to collect.
def Block.recipient (block : Block) : Option Account :=
  match block.hashables with
  | .sendBlock _ destination _ => some destination
  | _ => none

def SentTo (L : Lattice) (source : Hash) (destination : Account) (sent : Note) : Prop :=
  L.get source = some sent ∧ sent.block.recipient = some destination

def Entry (L : Lattice) (h : Hash) (n : Note) : Prop :=
  match n.block.hashables with
  | .sendBlock previous _ balance => ∃ before, L.get previous = some before ∧ balance ≤ before.balance ∧
      n = before.follow n.block balance (before.balance - balance)
  | .receiveBlock previous source => ∃ before sent, L.get previous = some before ∧
      SentTo L source before.account sent ∧ n = before.follow n.block (before.balance + sent.amount) sent.amount
  | .openBlock source representative account => representative ≠ 0 ∧ account ≠ 0 ∧ ∃ sent,
      SentTo L source account sent ∧ n = ⟨n.block, account, h, h, 1, sent.amount, sent.amount⟩
  | .changeBlock previous representative => representative ≠ 0 ∧ ∃ before, L.get previous = some before ∧
      n = { before.follow n.block before.balance 0 with repBlock := h }
  | .sendBlockV2 previous _ _ => ∃ before, L.get previous = some before ∧ n = before.follow n.block before.balance 0

def Needs (L : Lattice) (x d : Hash) : Prop :=
  ∃ n, L.get x = some n ∧ (d = n.block.previous ∨ d = n.block.source) ∧ L.get d ≠ none

def Depends (L : Lattice) : Hash → Hash → Prop := Relation.ReflTransGen (Needs L)

structure Consistent (env : Env) (L : Lattice) : Prop where
  genesis : ∃ stamp, L.get (genesisHash env) = some (genesisNote env stamp)
  hashed : ∀ h n, L.get h = some n → n.block.hash env = h
  entry : ∀ h n, L.get h = some n → h ≠ genesisHash env → Entry L h n
  signed : ∀ h n, L.get h = some n → h ≠ genesisHash env → env.validateMessage n.account h n.block.signature = false
  chain : ∀ h n k m, L.get h = some n → L.get k = some m → n.account = m.account →
    n.block.previous = m.block.previous → h = k
  once : ∀ h n k m, L.get h = some n → L.get k = some m → n.block.source = m.block.source → n.block.source ≠ 0 → h = k
  ranked : ∃ rank : Hash → Nat, ∀ x d, Needs L x d → rank d < rank x

-- A block that may be added: valid where it stands, on a latest block, from an unspent source.
structure Attach (env : Env) (L : Lattice) (h : Hash) (n : Note) : Prop where
  fresh : L.get h = none
  hashed : n.block.hash env = h
  entry : Entry L h n
  signed : env.validateMessage n.account h n.block.signature = false
  latest : ∀ k m, L.get k = some m → n.account = m.account → n.block.previous ≠ m.block.previous
  unspent : ∀ k m, L.get k = some m → n.block.source ≠ 0 → n.block.source ≠ m.block.source

-- The block an account's weight is counted by: the last one on the chain that names a representative.
def Names (L : Lattice) (n : Note) : Prop :=
  ∃ m, L.get n.repBlock = some m ∧ m.repBlock = n.repBlock ∧ m.account = n.account ∧ m.height ≤ n.height ∧
    m.block.representative ≠ 0 ∧ (m.block.kind = .openBlock ∨ m.block.kind = .changeBlock)

namespace Lattice

def rep (L : Lattice) (h : Hash) : Account := ((L.get h).map fun n => n.block.representative).getD 0

def Received (L : Lattice) (h : Hash) : Prop := ∃ c n, L.get c = some n ∧ n.block.source = h

open Classical in
noncomputable def succ (L : Lattice) (h : Hash) : Hash :=
  if child : ∃ c n, L.get c = some n ∧ n.block.previous = h then child.choose else 0

end Lattice

theorem recipient_eq_some (block : Block) (destination : Account) :
    block.recipient = some destination ↔ ∃ previous balance, block.hashables = .sendBlock previous destination balance := by
  unfold Block.recipient
  cases block.hashables <;> simp

theorem open_previous (block : Block) (opening : block.kind = .openBlock) : block.previous = 0 := by
  obtain ⟨hashables, signature, work⟩ := block
  cases hashables <;> first | rfl | cases opening

structure Follows (h : Hash) (n before : Note) : Prop where
  account : n.account = before.account
  openBlock : n.openBlock = before.openBlock
  height : n.height = before.height + 1
  inherits : n.block.kind ≠ .changeBlock → n.repBlock = before.repBlock
  changes : n.block.kind = .changeBlock → n.repBlock = h ∧ n.block.representative ≠ 0

theorem follows_follow (h : Hash) (n before : Note) (block : Block) (balance amount : Amount)
    (same : n = before.follow block balance amount) (keeps : block.kind ≠ .changeBlock) : Follows h n before := by
  subst same
  exact ⟨rfl, rfl, rfl, fun _ => rfl, fun changing => absurd changing keeps⟩

theorem entry_before {L : Lattice} {h : Hash} {n : Note} (entry : Entry L h n) (later : n.block.kind ≠ .openBlock) :
    ∃ before, L.get n.block.previous = some before ∧ Follows h n before := by
  obtain ⟨⟨hashables, signature, work⟩, account, openBlock, repBlock, height, balance, amount⟩ := n
  cases hashables with
  | openBlock source representative owner => exact absurd rfl later
  | sendBlock previous destination balance =>
      obtain ⟨before, stored, _, same⟩ := entry
      exact ⟨before, stored, follows_follow h _ before _ _ _ same (fun changing => by cases changing)⟩
  | receiveBlock previous source =>
      obtain ⟨before, sent, stored, _, same⟩ := entry
      exact ⟨before, stored, follows_follow h _ before _ _ _ same (fun changing => by cases changing)⟩
  | changeBlock previous representative =>
      obtain ⟨named, before, stored, same⟩ := entry
      refine ⟨before, stored, ?_⟩
      rw [same]
      exact ⟨rfl, rfl, rfl, fun keeps => absurd rfl keeps, fun _ => ⟨rfl, named⟩⟩
  | sendBlockV2 previous destination action =>
      obtain ⟨before, stored, same⟩ := entry
      exact ⟨before, stored, follows_follow h _ before _ _ _ same (fun changing => by cases changing)⟩

theorem entry_open (L : Lattice) (h : Hash) (n : Note) (entry : Entry L h n) (opening : n.block.kind = .openBlock) :
    ∃ source representative sent, n.block.hashables = .openBlock source representative n.account ∧
      representative ≠ 0 ∧ n.account ≠ 0 ∧ SentTo L source n.account sent ∧
      n = ⟨n.block, n.account, h, h, 1, sent.amount, sent.amount⟩ := by
  obtain ⟨⟨hashables, signature, work⟩, account, openBlock, repBlock, height, balance, amount⟩ := n
  cases hashables with
  | openBlock source representative owner =>
      obtain ⟨named, owned, sent, sentTo, same⟩ := entry
      have ownerEq : account = owner := (congrArg Note.account same :)
      subst ownerEq
      exact ⟨source, representative, sent, rfl, named, owned, sentTo, same⟩
  | _ => cases opening

theorem entry_opening (L : Lattice) (h : Hash) (n : Note) (entry : Entry L h n) (source : Hash) (representative account : Account)
    (fields : n.block.hashables = .openBlock source representative account) :
    n.account = account ∧ account ≠ 0 ∧ ∃ sent, SentTo L source account sent := by
  simp only [Entry, fields] at entry
  obtain ⟨_, owned, sent, sentTo, same⟩ := entry
  exact ⟨(congrArg Note.account same :), owned, sent, sentTo⟩

theorem spending_kind (block : Block) (spends : block.source ≠ 0) : block.kind = .receiveBlock ∨ block.kind = .openBlock := by
  obtain ⟨hashables, signature, work⟩ := block
  cases hashables with
  | receiveBlock previous source => exact Or.inl rfl
  | openBlock source representative account => exact Or.inr rfl
  | _ => exact absurd rfl spends

theorem entry_spends (L : Lattice) (h : Hash) (n : Note) (entry : Entry L h n)
    (spends : n.block.kind = .receiveBlock ∨ n.block.kind = .openBlock) :
    ∃ sent, SentTo L n.block.source n.account sent ∧ n.amount = sent.amount := by
  obtain ⟨⟨hashables, signature, work⟩, account, openBlock, repBlock, height, balance, amount⟩ := n
  cases hashables with
  | receiveBlock previous source =>
      obtain ⟨before, sent, _, sentTo, same⟩ := entry
      have owner : account = before.account := (congrArg Note.account same :)
      exact ⟨sent, by rw [owner]; exact sentTo, (congrArg Note.amount same :)⟩
  | openBlock source representative owner =>
      obtain ⟨_, _, sent, sentTo, same⟩ := entry
      have ownerEq : account = owner := (congrArg Note.account same :)
      exact ⟨sent, by rw [ownerEq]; exact sentTo, (congrArg Note.amount same :)⟩
  | _ => obtain receives | opens := spends <;> contradiction

theorem entry_source (L : Lattice) (h : Hash) (n : Note) (entry : Entry L h n) (spends : n.block.source ≠ 0) :
    ∃ sent, SentTo L n.block.source n.account sent ∧ n.amount = sent.amount :=
  entry_spends L h n entry (spending_kind n.block spends)

theorem sent_to_mono (L M : Lattice) (source : Hash) (destination : Account) (sent : Note)
    (keeps : L.get source = some sent → M.get source = some sent) (sentTo : SentTo L source destination sent) :
    SentTo M source destination sent := ⟨keeps sentTo.1, sentTo.2⟩

-- An entry only looks at the notes of the blocks it names.
theorem entry_mono (L M : Lattice) (h : Hash) (n : Note)
    (keeps : ∀ d m, (d = n.block.previous ∨ d = n.block.source) → L.get d = some m → M.get d = some m)
    (entry : Entry L h n) : Entry M h n := by
  obtain ⟨⟨hashables, signature, work⟩, account, openBlock, repBlock, height, balance, amount⟩ := n
  cases hashables with
  | sendBlock previous destination balance =>
      obtain ⟨before, stored, rest⟩ := entry
      exact ⟨before, keeps _ _ (Or.inl rfl) stored, rest⟩
  | receiveBlock previous source =>
      obtain ⟨before, sent, stored, sentTo, same⟩ := entry
      exact ⟨before, sent, keeps _ _ (Or.inl rfl) stored,
        sent_to_mono L M _ _ _ (keeps _ _ (Or.inr rfl)) sentTo, same⟩
  | openBlock source representative owner =>
      obtain ⟨named, owned, sent, sentTo, same⟩ := entry
      exact ⟨named, owned, sent, sent_to_mono L M _ _ _ (keeps _ _ (Or.inr rfl)) sentTo, same⟩
  | changeBlock previous representative =>
      obtain ⟨named, before, stored, same⟩ := entry
      exact ⟨named, before, keeps _ _ (Or.inl rfl) stored, same⟩
  | sendBlockV2 previous destination action =>
      obtain ⟨before, stored, same⟩ := entry
      exact ⟨before, keeps _ _ (Or.inl rfl) stored, same⟩

theorem succ_child (L : Lattice) (h : Hash) (inner : L.succ h ≠ 0) : ∃ n, L.get (L.succ h) = some n ∧ n.block.previous = h := by
  by_cases child : ∃ c n, L.get c = some n ∧ n.block.previous = h
  · rw [Lattice.succ, dif_pos child]
    exact child.choose_spec
  · exact absurd (dif_neg child) inner

section Reading

variable {env : Env} {L : Lattice} [apart : HashesApart env] (consistent : Consistent env L)
include consistent

theorem stored_ne_zero (h : Hash) (n : Note) (stored : L.get h = some n) : h ≠ 0 := by
  rw [← consistent.hashed h n stored]
  exact apart.zero n.block

theorem zero_not_stored : L.get 0 = none := by
  cases found : L.get 0 with
  | none => rfl
  | some n => exact absurd rfl (stored_ne_zero consistent 0 n found)

theorem account_not_stored (account : Account) (number : AccountNumber env account) : L.get account = none := by
  cases found : L.get account with
  | none => rfl
  | some n => exact absurd (consistent.hashed account n found) (apart.account n.block account number)

omit [HashesApart env] in
theorem genesis_present : L.get (genesisHash env) ≠ none := by
  obtain ⟨stamp, issued⟩ := consistent.genesis
  rw [issued]
  exact Option.some_ne_none _

omit [HashesApart env] in
theorem stored_genesis (n : Note) (stored : L.get (genesisHash env) = some n) : ∃ stamp, n = genesisNote env stamp := by
  obtain ⟨stamp, issued⟩ := consistent.genesis
  rw [issued] at stored
  exact ⟨stamp, (Option.some.inj stored).symm⟩

omit [HashesApart env] in
theorem stored_before {h : Hash} {n : Note} (stored : L.get h = some n) (later : n.block.previous ≠ 0) :
    ∃ before, L.get n.block.previous = some before ∧ Follows h n before := by
  by_cases atGenesis : h = genesisHash env
  · subst atGenesis
    obtain ⟨stamp, rfl⟩ := stored_genesis consistent n stored
    exact absurd rfl later
  · exact entry_before (consistent.entry h n stored atGenesis) fun opening => later (open_previous n.block opening)

omit [HashesApart env] in
theorem stored_previous_ne (h : Hash) (n : Note) (stored : L.get h = some n) : n.block.previous ≠ h := by
  intro loop
  obtain ⟨rank, drops⟩ := consistent.ranked
  have lower := drops h h ⟨n, stored, Or.inl loop.symm, by simp [stored]⟩
  omega

theorem previous_zero_iff {h : Hash} {n : Note} (stored : L.get h = some n) :
    n.block.previous = 0 ↔ n.block.kind = .openBlock := by
  constructor
  · intro first
    by_cases atGenesis : h = genesisHash env
    · subst atGenesis
      obtain ⟨stamp, rfl⟩ := stored_genesis consistent n stored
      rfl
    · by_contra later
      obtain ⟨before, present, _⟩ := entry_before (consistent.entry h n stored atGenesis) later
      rw [first, zero_not_stored consistent] at present
      cases present
  · exact open_previous n.block

omit [HashesApart env] in
theorem stored_account (h : Hash) (n : Note) (stored : L.get h = some n) : AccountNumber env n.account := by
  by_cases atGenesis : h = genesisHash env
  · subst atGenesis
    obtain ⟨stamp, rfl⟩ := stored_genesis consistent n stored
    exact Or.inl rfl
  · exact Or.inr ⟨h, n.block.signature, consistent.signed h n stored atGenesis⟩

theorem stored_source (h d : Hash) (n : Note) (stored : L.get h = some n) (spends : n.block.source = d)
    (hashed : L.get d ≠ none ∨ d ≠ 0 ∧ h ≠ genesisHash env) :
    h ≠ genesisHash env ∧ ∃ sent, SentTo L d n.account sent ∧ n.amount = sent.amount := by
  have later : h ≠ genesisHash env := by
    rintro rfl
    obtain ⟨stamp, rfl⟩ := stored_genesis consistent n stored
    obtain present | ⟨_, later⟩ := hashed
    · exact present (by rw [← spends]; exact account_not_stored consistent _ (Or.inl rfl))
    · exact later rfl
  have nonzero : d ≠ 0 := by
    obtain present | ⟨nonzero, _⟩ := hashed
    · rintro rfl
      exact present (zero_not_stored consistent)
    · exact nonzero
  subst spends
  exact ⟨later, entry_source L h n (consistent.entry h n stored later) nonzero⟩

theorem needs_stored (h d : Hash) (n : Note) (stored : L.get h = some n) (hashed : ∃ block : Block, block.hash env = d)
    (named : d = n.block.previous ∨ d = n.block.source) : L.get d ≠ none := by
  obtain ⟨block, digest⟩ := hashed
  have nonzero : d ≠ 0 := digest ▸ apart.zero block
  obtain before | source := named
  · obtain ⟨m, present, _⟩ := stored_before consistent stored (before ▸ nonzero)
    simp [before, present]
  · by_cases atGenesis : h = genesisHash env
    · subst atGenesis
      obtain ⟨stamp, rfl⟩ := stored_genesis consistent n stored
      exact absurd (digest.trans source) (apart.account block _ (Or.inl rfl))
    · obtain ⟨_, sent, sentTo, _⟩ :=
        stored_source consistent h d n stored source.symm (Or.inr ⟨nonzero, atGenesis⟩)
      simp [sentTo.1]

omit [HashesApart env] in
theorem succ_of_child {c h : Hash} {n : Note} (stored : L.get c = some n) (child : n.block.previous = h) (nonzero : h ≠ 0) :
    L.succ h = c := by
  have some : ∃ c n, L.get c = some n ∧ n.block.previous = h := ⟨c, n, stored, child⟩
  obtain ⟨m, found, above⟩ := some.choose_spec
  rw [Lattice.succ, dif_pos some]
  obtain ⟨before, present, follows⟩ := stored_before consistent stored (child ▸ nonzero)
  obtain ⟨before', present', follows'⟩ := stored_before consistent found (above ▸ nonzero)
  rw [above, ← child, present] at present'
  cases present'
  exact consistent.chain _ m c n found stored (follows'.account.trans follows.account.symm) (above.trans child.symm)

theorem succ_zero_iff (h : Hash) (nonzero : h ≠ 0) :
    L.succ h = 0 ↔ ∀ c n, L.get c = some n → n.block.previous ≠ h := by
  constructor
  · intro last c n stored child
    exact stored_ne_zero consistent c n stored
      ((succ_of_child consistent stored child nonzero).symm.trans last)
  · intro childless
    rw [Lattice.succ, dif_neg]
    rintro ⟨c, n, stored, child⟩
    exact childless c n stored child

theorem stored_open {h : Hash} {n : Note} (stored : L.get h = some n) (first : n.block.previous = 0) :
    n.openBlock = h ∧ n.repBlock = h ∧ n.height = 1 ∧ n.block.representative ≠ 0 ∧ n.account ≠ 0 := by
  by_cases atGenesis : h = genesisHash env
  · subst atGenesis
    obtain ⟨stamp, rfl⟩ := stored_genesis consistent n stored
    exact ⟨rfl, rfl, rfl, genesis_account_ne_zero _, genesis_account_ne_zero _⟩
  · obtain ⟨source, representative, sent, fields, named, owned, _, same⟩ :=
      entry_open L h n (consistent.entry h n stored atGenesis) ((previous_zero_iff consistent stored).mp first)
    refine ⟨(congrArg Note.openBlock same :), (congrArg Note.repBlock same :), (congrArg Note.height same :), ?_, owned⟩
    simpa only [Block.representative, fields] using named

theorem height_pos {h : Hash} {n : Note} (stored : L.get h = some n) : 0 < n.height := by
  by_cases later : n.block.previous = 0
  · rw [(stored_open consistent stored later).2.2.1]
    exact Nat.one_pos
  · obtain ⟨before, _, follows⟩ := stored_before consistent stored later
    rw [follows.height]
    exact Nat.succ_pos _

theorem open_height {h : Hash} {n : Note} (stored : L.get h = some n) : n.height = 1 ↔ n.block.previous = 0 := by
  constructor
  · intro bottom
    by_contra later
    obtain ⟨before, present, follows⟩ := stored_before consistent stored later
    have positive := height_pos consistent present
    have above := follows.height
    omega
  · exact fun first => (stored_open consistent stored first).2.2.1

-- A chain is a line: its account and height name a block.
theorem chain_linear (k : Nat) (h x : Hash) (n m : Note) (stored : L.get h = some n) (present : L.get x = some m)
    (owner : n.account = m.account) (level : n.height = k + 1) (same : m.height = k + 1) : h = x := by
  induction k generalizing h x n m with
  | zero =>
      have first := (open_height consistent stored).mp level
      have first' := (open_height consistent present).mp same
      exact consistent.chain h n x m stored present owner (first.trans first'.symm)
  | succ k ih =>
      have later : n.block.previous ≠ 0 := fun first => by
        have bottom := (open_height consistent stored).mpr first
        omega
      have later' : m.block.previous ≠ 0 := fun first => by
        have bottom := (open_height consistent present).mpr first
        omega
      obtain ⟨before, found, follows⟩ := stored_before consistent stored later
      obtain ⟨before', found', follows'⟩ := stored_before consistent present later'
      have mates : before.account = before'.account := by rw [← follows.account, ← follows'.account, owner]
      have below := ih _ _ before before' found found' mates (Nat.succ.inj (follows.height.symm.trans level))
        (Nat.succ.inj (follows'.height.symm.trans same))
      exact consistent.chain h n x m stored present owner below

theorem exists_latest (h : Hash) (n : Note) (stored : L.get h = some n) :
    ∃ t m, L.get t = some m ∧ m.account = n.account ∧ L.succ t = 0 ∧ n.height ≤ m.height := by
  let level : Hash → Nat := fun x => ((L.get x).map Note.height).getD 0
  let mates : Finset Hash := L.keys.filter fun x => (L.get x).map Note.account = some n.account
  have member : h ∈ mates := Finset.mem_filter.mpr ⟨(Table.mem_keys L h).mpr (by simp [stored]), by simp [stored]⟩
  obtain ⟨t, chosen, highest⟩ := Finset.exists_max_image mates level ⟨h, member⟩
  obtain ⟨m, present, owner⟩ := Option.map_eq_some_iff.mp (Finset.mem_filter.mp chosen).2
  have top : n.height ≤ m.height := by simpa [level, stored, present] using highest h member
  refine ⟨t, m, present, owner, ?_, top⟩
  rw [succ_zero_iff consistent t (stored_ne_zero consistent t m present)]
  intro c child found above
  obtain ⟨before, below, follows⟩ := stored_before consistent found (above ▸ stored_ne_zero consistent t m present)
  rw [above, present] at below
  cases below
  have mate : c ∈ mates := Finset.mem_filter.mpr
    ⟨(Table.mem_keys L c).mpr (by simp [found]), by simp [found, follows.account, owner]⟩
  have lower := highest c mate
  simp only [level, found, present, Option.map_some, Option.getD_some, follows.height] at lower
  omega

theorem ancestor_at (h : Hash) (n : Note) (k : Nat) (stored : L.get h = some n) (positive : 0 < k) (within : k ≤ n.height) :
    ∃ x m, L.get x = some m ∧ m.account = n.account ∧ m.height = k ∧ m.openBlock = n.openBlock ∧
      (k = n.height ∨ L.succ x ≠ 0) ∧ Depends L h x := by
  obtain ⟨gap, gapEq⟩ : ∃ gap, n.height = k + gap := ⟨n.height - k, by omega⟩
  induction gap generalizing k with
  | zero => exact ⟨h, n, stored, rfl, gapEq, rfl, Or.inl gapEq.symm, Relation.ReflTransGen.refl⟩
  | succ gap ih =>
      obtain ⟨c, child, found, owner, level, opened, _, reaches⟩ := ih (k + 1) (by omega) (by omega) (by omega)
      have later : child.block.previous ≠ 0 := fun first => by
        have bottom := (open_height consistent found).mpr first
        omega
      obtain ⟨before, present, follows⟩ := stored_before consistent found later
      have inner := succ_of_child consistent found rfl later
      have needs : Needs L c child.block.previous := ⟨child, found, Or.inl rfl, by simp [present]⟩
      refine ⟨_, before, present, follows.account.symm.trans owner, ?_, follows.openBlock.symm.trans opened, Or.inr ?_,
        reaches.tail needs⟩
      · have above := follows.height
        omega
      · rw [inner]
        exact stored_ne_zero consistent c child found

theorem latest_above {t h : Hash} {top n : Note} (found : L.get t = some top) (last : L.succ t = 0) (stored : L.get h = some n)
    (owner : n.account = top.account) : n.height ≤ top.height ∧ Depends L t h := by
  have positive := height_pos consistent found
  have bounded : n.height ≤ top.height := by
    by_contra higher
    obtain ⟨x, m, present, mate, level, _, inner, _⟩ := ancestor_at consistent h n top.height stored positive (by omega)
    have same := chain_linear consistent (top.height - 1) x t m top present found (mate.trans owner) (by omega) (by omega)
    obtain level' | inner := inner
    · omega
    · exact inner (same ▸ last)
  have low := height_pos consistent stored
  obtain ⟨x, m, present, mate, level, _, _, reaches⟩ := ancestor_at consistent t top n.height found low bounded
  have same := chain_linear consistent (n.height - 1) x h m n present stored (mate.trans owner.symm) (by omega) (by omega)
  exact ⟨bounded, same ▸ reaches⟩

theorem latest_unique (t x : Hash) (top m : Note) (found : L.get t = some top) (last : L.succ t = 0) (present : L.get x = some m)
    (last' : L.succ x = 0) (owner : m.account = top.account) : t = x := by
  have below := (latest_above consistent found last present owner).1
  have above := (latest_above consistent present last' found owner.symm).1
  have positive := height_pos consistent found
  exact chain_linear consistent (top.height - 1) t x top m found present owner.symm (by omega) (by omega)

omit [HashesApart env] in
theorem stored_entry (h : Hash) (n : Note) (stored : L.get h = some n) (later : n.block.kind ≠ .openBlock) : Entry L h n := by
  apply consistent.entry h n stored
  rintro rfl
  obtain ⟨stamp, rfl⟩ := stored_genesis consistent n stored
  exact later rfl

omit [HashesApart env] in
theorem stored_send {h previous : Hash} {destination : Account} {balance : Amount} {n : Note} (stored : L.get h = some n)
    (fields : n.block.hashables = .sendBlock previous destination balance) : ∃ before, L.get previous = some before ∧
      balance ≤ before.balance ∧ n.balance = balance ∧ n.amount = before.balance - balance := by
  have entry := stored_entry consistent h n stored (by simp [Block.kind, fields])
  simp only [Entry, fields] at entry
  obtain ⟨before, present, covered, same⟩ := entry
  exact ⟨before, present, covered, (congrArg Note.balance same :), (congrArg Note.amount same :)⟩

omit [HashesApart env] in
theorem stored_receive {h previous source : Hash} {n : Note} (stored : L.get h = some n)
    (fields : n.block.hashables = .receiveBlock previous source) : ∃ before sent, L.get previous = some before ∧
      SentTo L source before.account sent ∧ n.balance = before.balance + sent.amount ∧ n.amount = sent.amount := by
  have entry := stored_entry consistent h n stored (by simp [Block.kind, fields])
  simp only [Entry, fields] at entry
  obtain ⟨before, sent, present, sentTo, same⟩ := entry
  exact ⟨before, sent, present, sentTo, (congrArg Note.balance same :), (congrArg Note.amount same :)⟩

omit [HashesApart env] in
theorem stored_change {h previous : Hash} {representative : Account} {n : Note} (stored : L.get h = some n)
    (fields : n.block.hashables = .changeBlock previous representative) : ∃ before, L.get previous = some before ∧
      n.balance = before.balance ∧ n.amount = 0 := by
  have entry := stored_entry consistent h n stored (by simp [Block.kind, fields])
  simp only [Entry, fields] at entry
  obtain ⟨_, before, present, same⟩ := entry
  exact ⟨before, present, (congrArg Note.balance same :), (congrArg Note.amount same :)⟩

omit [HashesApart env] in
theorem stored_v2 {h previous : Hash} {destination : Account} {action : Bytes} {n : Note} (stored : L.get h = some n)
    (fields : n.block.hashables = .sendBlockV2 previous destination action) : ∃ before, L.get previous = some before ∧
      n.balance = before.balance ∧ n.amount = 0 := by
  have entry := stored_entry consistent h n stored (by simp [Block.kind, fields])
  simp only [Entry, fields] at entry
  obtain ⟨before, present, same⟩ := entry
  exact ⟨before, present, (congrArg Note.balance same :), (congrArg Note.amount same :)⟩

theorem stored_open_source {h source : Hash} {representative account : Account} {n : Note} (stored : L.get h = some n)
    (fields : n.block.hashables = .openBlock source representative account) :
    source = genesisAccount env.network ∧ h = genesisHash env ∧ n.balance = genesisAmount ∧ n.amount = genesisAmount ∨
      source ≠ genesisAccount env.network ∧ ∃ sent, SentTo L source account sent ∧ n.account = account ∧
        n.balance = sent.amount ∧ n.amount = sent.amount := by
  by_cases atGenesis : h = genesisHash env
  · subst atGenesis
    obtain ⟨stamp, rfl⟩ := stored_genesis consistent n stored
    cases fields
    exact Or.inl ⟨rfl, rfl, rfl, rfl⟩
  · have entry := consistent.entry h n stored atGenesis
    simp only [Entry, fields] at entry
    obtain ⟨_, _, sent, sentTo, same⟩ := entry
    refine Or.inr ⟨?_, sent, sentTo, (congrArg Note.account same :), (congrArg Note.balance same :), (congrArg Note.amount same :)⟩
    rintro rfl
    have present := sentTo.1
    rw [account_not_stored consistent _ (Or.inl rfl)] at present
    cases present

theorem chain_induction (holds : Hash → Note → Prop)
    (first : ∀ h n, L.get h = some n → n.block.previous = 0 → holds h n)
    (later : ∀ h n before, L.get h = some n → L.get n.block.previous = some before → Follows h n before →
      holds n.block.previous before → holds h n) (h : Hash) (n : Note) (stored : L.get h = some n) : holds h n := by
  obtain ⟨level, levelEq⟩ : ∃ k, n.height = k := ⟨_, rfl⟩
  induction level generalizing h n with
  | zero =>
      have positive := height_pos consistent stored
      omega
  | succ level ih =>
      by_cases opening : n.block.previous = 0
      · exact first h n stored opening
      · obtain ⟨before, present, follows⟩ := stored_before consistent stored opening
        have above := follows.height
        exact later h n before stored present follows (ih _ before present (by omega))

theorem stored_account_ne_zero {h : Hash} {n : Note} (stored : L.get h = some n) : n.account ≠ 0 := by
  apply chain_induction consistent (fun _ n => n.account ≠ 0) _ _ h n stored
  · exact fun h n stored first => (stored_open consistent stored first).2.2.2.2
  · intro h n before _ _ follows owned
    rw [follows.account]
    exact owned

theorem rep_block_stored {h : Hash} {n : Note} (stored : L.get h = some n) : Names L n := by
  apply chain_induction consistent (fun _ n => Names L n) _ _ h n stored
  · intro h n stored first
    obtain ⟨_, own, _, named, _⟩ := stored_open consistent stored first
    exact ⟨n, own ▸ stored, rfl, rfl, Nat.le_refl _, named, Or.inl ((previous_zero_iff consistent stored).mp first)⟩
  · intro h n before stored _ follows below
    by_cases changing : n.block.kind = .changeBlock
    · obtain ⟨own, named⟩ := follows.changes changing
      exact ⟨n, own ▸ stored, rfl, rfl, Nat.le_refl _, named, Or.inr changing⟩
    · obtain ⟨m, found, same, mate, lower, rest⟩ := below
      rw [Names, follows.inherits changing, follows.account, follows.height]
      exact ⟨m, found, same, mate, Nat.le_succ_of_le lower, rest⟩

end Reading

end Rai
