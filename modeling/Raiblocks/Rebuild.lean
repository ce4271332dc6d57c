import Mathlib.Tactic.IntervalCases
import Raiblocks.Formats

set_option autoImplicit false

namespace Rai

open Kit

section Rows

variable {v : Nat} {info : AccountInfo} {row : AccountRow}

theorem row_v1 (fits : RowFor 1 info row) : ∃ rep, row = .v1 ⟨info.head, rep, info.balance, info.modified⟩ := by
  cases row with
  | v1 old =>
      obtain ⟨_, rep, fields⟩ := fits
      exact ⟨rep, congrArg AccountRow.v1 fields⟩
  | v5 old => exact absurd fits.1 (by decide)
  | current old => exact absurd fits.1 (by decide)

theorem row_v5 (low : 2 ≤ v) (high : v ≤ 5) (fits : RowFor v info row) :
    ∃ rep, row = .v5 ⟨info.head, rep, info.openBlock, info.balance, info.modified⟩ ∧ (3 ≤ v → rep = info.repBlock) := by
  cases row with
  | v1 old =>
      have early := fits.1
      omega
  | v5 old =>
      obtain ⟨_, _, rep, fields, named⟩ := fits
      exact ⟨rep, congrArg AccountRow.v5 fields, named⟩
  | current old =>
      have late := fits.1
      omega

theorem row_current (late : 6 ≤ v) (fits : RowFor v info row) : row = .current info := by
  cases row with
  | v1 old =>
      have early := fits.1
      omega
  | v5 old =>
      have early := fits.2.1
      omega
  | current old => exact congrArg AccountRow.current fits.2

end Rows

section Accounts

variable {env : Env} {L : Lattice} {s : Store} {v : Nat} {db : Database} (consistent : Consistent env L)
  (agrees : Agrees L s) (format : InFormat s v db)

include agrees format in
theorem row_owned {account : Account} {row : AccountRow} (found : db.accounts.get account = some row) :
    ∃ h n time, L.Latest h n ∧ n.account = account ∧ s.accounts.get account = some (n.info h time) ∧ RowFor v (n.info h time) row := by
  have fit := format.accounts account
  rw [found] at fit
  obtain ⟨info, known, fits⟩ := rel_some fit
  obtain ⟨h, n, latest, owner, same⟩ := account_owned agrees known
  rw [same] at known fits
  exact ⟨h, n, info.modified, latest, owner, known, fits⟩

include consistent agrees format in
theorem owner_listed [HashesApart env] (x : Hash) (n : Note) (stored : L.get x = some n) :
    n.account ∈ db.accounts.rows.map Prod.fst := by
  obtain ⟨info, known⟩ := Option.isSome_iff_exists.mp (account_present consistent agrees x n stored)
  have fit := format.accounts n.account
  cases found : db.accounts.get n.account with
  | none =>
      rw [found] at fit
      rw [rel_none fit] at known
      cases known
  | some row => exact Table.key_listed db.accounts n.account row found

end Accounts

def delegated (L : Lattice) (s : Store) (r account : Account) : Amount :=
  ((s.accounts.get account).map fun info => if L.rep info.repBlock = r then info.balance else 0).getD 0

structure Weighing (L : Lattice) (s : Store) (base : Store) (done : List Account) (t : Store) : Prop where
  rest : t = { base with representation := t.representation }
  weights : ∀ r, representationGet t r = (done.map (delegated L s r)).sum

section Weighing

variable {env : Env} {L : Lattice} {s base : Store} {next : Hash → Hash} [HashesApart env] (consistent : Consistent env L)
  (agrees : Agrees L s) (holds : BlocksHold L next base.blocks)

include consistent holds in
theorem weighing_add (done : List Account) (t : Store) (h : Hash) (n : Note) (time : Nat) (stored : L.get h = some n)
    (known : s.accounts.get n.account = some (n.info h time)) (weighing : Weighing L s base done t) :
    ∃ t', representationAdd t n.repBlock n.balance = .ok t' ∧ Weighing L s base (done ++ [n.account]) t' := by
  obtain ⟨m, found, _, _, _, named, _⟩ := rep_block_stored consistent stored
  have blocks : BlocksHold L next t.blocks := by
    rw [weighing.rest]
    exact holds
  have rep : L.rep n.repBlock = m.block.representative := by
    rw [Lattice.rep, found]
    rfl
  refine ⟨_, representation_add_ok t n.repBlock n.balance m blocks found named, ?_, fun r => ?_⟩
  · rw [representationPut, weighing.rest]
  · rw [representation_get_add, weighing.weights, List.map_append, List.sum_append, List.map_singleton, List.sum_singleton,
      delegated, known, Option.map_some, Option.getD_some, Note.info_repBlock, Note.info_balance, rep]
    simp only [eq_comm]

include consistent agrees in
theorem weighed_all (v : Nat) (db : Database) (format : InFormat s v db) (r : Account) :
    ((db.accounts.rows.map Prod.fst).map (delegated L s r)).sum = representationGet s r := by
  have rows := Table.lists_fold (M := Amount) (· + ·) 0 (fun account _ => delegated L s r account) db.accounts _
    (Table.lists_rows db.accounts)
  have same : db.accounts.fold (M := Amount) (· + ·) 0 (fun account _ => delegated L s r account) =
      s.accounts.fold (M := Amount) (· + ·) 0 fun _ info => if L.rep info.repBlock = r then info.balance else 0 := by
    apply Table.fold_congr
    intro account
    have fit := format.accounts account
    cases found : db.accounts.get account with
    | none =>
        rw [found] at fit
        rw [rel_none fit]
        rfl
    | some row =>
        rw [found] at fit
        obtain ⟨info, known, _⟩ := rel_some fit
        rw [delegated, known]
        rfl
  rw [agrees.weights, List.map_map, List.sum_eq_foldr, List.foldr_map]
  exact (rows.trans same).trans (accounts_fold consistent agrees (A := Amount) (· + ·) 0 add_zero
    fun _ repBlock balance => if L.rep repBlock = r then balance else 0)

end Weighing

def Linked (L : Lattice) (base : Store) (done : List Account) (t : Store) : Prop :=
  ∃ blocks next, t = { base with blocks := blocks } ∧ BlocksHold L next blocks ∧ Stale L next ∧
    ∀ y m, L.get y = some m → m.account ∈ done → next y = L.succ y

theorem linked_fill {env : Env} {L : Lattice} {rank : Hash → Nat} {top : Nat} [HashesApart env] (consistent : Consistent env L)
    (legacy : Legacy L) (ranked : Ranked rank top L) (fuel : Nat) (base : Store) (done : List Account) (t : Store) (h : Hash) (n : Note)
    (latest : L.Latest h n) (linked : Linked L base done t) :
    Settles (fillSuccessors env fuel t h 0) (Starved (4 * top + 2 ≤ fuel)) (Linked L base (done ++ [n.account])) := by
  obtain ⟨blocks, next, rfl, holds, stale, filled⟩ := linked
  have bounded := height_le_top consistent ranked h n latest.1
  have chain := fill_settles consistent legacy fuel next { base with blocks := blocks } h n holds stale latest.1
  rw [latest.2] at chain
  refine settles_mono (settles_enough chain fun enough => by omega) (fun _ => id) ?_
  rintro t ⟨blocks', next', rfl, holds', mends, below⟩
  refine ⟨blocks', next', rfl, holds', mends_stale mends stale, fun y m found member => ?_⟩
  obtain earlier | now := List.mem_append.mp member
  · exact mends_right mends y m found (filled y m found earlier)
  · have owner := List.mem_singleton.mp now
    exact below y m found owner (latest_above consistent latest.1 latest.2 found owner).1

structure Marked (L : Lattice) (base : Store) (done : List Account) (t : Store) : Prop where
  rest : t = { base with blocksInfo := t.blocksInfo }
  behind : ∀ x n, L.get x = some n → n.account ∈ done → t.blocksInfo.get x = L.checkpoint x
  ahead : ∀ x, (∀ n, L.get x = some n → n.account ∉ done) → t.blocksInfo.get x = none

section Marking

variable {env : Env} {L : Lattice} {base : Store} {rank : Hash → Nat} {top : Nat} (consistent : Consistent env L)
  (legacy : Legacy L) (ranked : Ranked rank top L) (holds : BlocksHold L L.succ base.blocks)

theorem marked_truthful (done : List Account) (t : Store) (marked : Marked L base done t) (x : Hash) (info : BlockInfo)
    (found : t.blocksInfo.get x = some info) : ∃ n, L.get x = some n ∧ info = ⟨n.account, n.balance⟩ := by
  by_cases passed : ∃ n, L.get x = some n ∧ n.account ∈ done
  · obtain ⟨n, stored, member⟩ := passed
    rw [marked.behind x n stored member, checkpoint_some_iff] at found
    obtain ⟨m, present, _, same⟩ := found
    exact ⟨m, present, same⟩
  · rw [marked.ahead x fun n stored member => passed ⟨n, stored, member⟩] at found
    cases found

theorem marked_chain (done : List Account) (account : Account) (t t' : Store) (marked : Marked L base done t)
    (rest : t' = { t with blocksInfo := t'.blocksInfo })
    (own : ∀ x n, L.get x = some n → n.account = account → t'.blocksInfo.get x = L.checkpoint x)
    (others : ∀ x, (∀ n, L.get x = some n → n.account ≠ account) → t'.blocksInfo.get x = t.blocksInfo.get x) :
    Marked L base (done ++ [account]) t' := by
  refine ⟨?_, fun x n stored member => ?_, fun x unseen => ?_⟩
  · rw [rest, marked.rest]
  · by_cases mine : n.account = account
    · exact own x n stored mine
    · have earlier := (List.mem_append.mp member).resolve_right fun now => mine (List.mem_singleton.mp now)
      rw [others x fun m found => by rw [stored] at found; cases found; exact mine]
      exact marked.behind x n stored earlier
  · rw [others x fun n stored same => unseen n stored (List.mem_append_right done (List.mem_singleton.mpr same))]
    exact marked.ahead x fun n stored member => unseen n stored (List.mem_append_left [account] member)

include consistent legacy ranked holds in
theorem marked_climb [HashesApart env] (fuel : Nat) (done : List Account) (t : Store) (h : Hash) (n : Note) (latest : L.Latest h n)
    (unseen : n.account ∉ done) (marked : Marked L base done t) :
    Settles (addCheckpoints env fuel n.account fuel t n.openBlock 1) (Starved (4 * top + 2 ≤ fuel))
    (Marked L base (done ++ [n.account])) := by
  have blocks : BlocksHold L L.succ t.blocks := by
    rw [marked.rest]
    exact holds
  -- The walk starts at the bottom of the chain.
  obtain ⟨x, first, stored, owner, bottom, opened, _⟩ :=
    ancestor_at consistent h n 1 latest.1 Nat.one_pos (height_pos consistent latest.1)
  have own := (stored_open consistent stored ((open_height consistent stored).mp bottom)).1
  have start : Climbing L n.account first.height t t := by
    refine ⟨rfl, fun y m found _ low => ?_, fun y _ => rfl⟩
    have positive := height_pos consistent found
    omega
  have blank : ∀ y m, L.get y = some m → m.account = n.account → t.blocksInfo.get y = none := by
    intro y m found mate
    refine marked.ahead y fun m' found' => ?_
    rw [found] at found'
    cases found'
    rw [mate]
    exact unseen
  have climb := add_checkpoints_settles consistent legacy ranked blocks (marked_truthful done t marked) fuel fuel n.account t x first
    stored owner blank start
  rw [bottom, ← own, opened] at climb
  refine settles_mono (settles_enough climb fun enough => ⟨by omega, by omega⟩) (fun _ => id) ?_
  rintro t' ⟨rest, mine, others⟩
  exact marked_chain done n.account t t' marked rest mine others

include consistent in
theorem marked_short [HashesApart env] (done : List Account) (t : Store) (h : Hash) (n : Note) (latest : L.Latest h n)
    (unseen : n.account ∉ done) (short : n.height < blockInfoMax) (marked : Marked L base done t) :
    Marked L base (done ++ [n.account]) t := by
  refine marked_chain done n.account t t marked rfl (fun x m stored mate => ?_) fun _ _ => rfl
  have low := (latest_above consistent latest.1 latest.2 stored mate).1
  have positive := height_pos consistent stored
  have between : m.height % blockInfoMax ≠ 0 := by
    rw [Nat.mod_eq_of_lt (lt_of_le_of_lt low short)]
    exact Nat.ne_of_gt positive
  rw [Lattice.checkpoint, stored]
  dsimp only
  rw [if_neg between]
  refine marked.ahead x fun m' found => ?_
  rw [stored] at found
  cases found
  rw [mate]
  exact unseen

end Marking

-- The versions that do not read the chains never stop.
section Untouched

variable {s : Store} (db : Database) (fault : Fault → Prop)

theorem v3_to_v4 (format : InFormat s 3 db) : Settles (upgradeV3ToV4 db) fault (InFormat s 4) := by
  have fits := format.pending
  unfold upgradeV3ToV4
  cases kept : db.pending with
  | byKey table =>
      rw [kept] at fits
      exact absurd fits.1 (by decide)
  | byHash table =>
      rw [kept] at fits
      have lists := Table.lists_rows table
      have once : (table.rows.map fun row => (⟨row.2.destination, row.1⟩ : PendingKey)).Nodup := by
        apply List.Nodup.of_map PendingKey.hash
        rw [List.map_map]
        exact lists.once
      obtain ⟨inside, outside⟩ := Table.put_entries (fun row : Hash × PendingInfoV3 => (⟨row.2.destination, row.1⟩ : PendingKey))
        (fun row => (⟨row.2.source, row.2.amount⟩ : PendingInfo)) table.rows once .empty
      have keyed : ∀ key,
        ((table.rows.foldl (fun keyed row => keyed.put ⟨row.2.destination, row.1⟩ ⟨row.2.source, row.2.amount⟩) .empty) :
          Table PendingKey PendingInfo).get key = s.pending.get key := by
        intro key
        cases waits : s.pending.get key with
        | some info =>
            have listed := (lists.entries _ _).mpr ((fits.2 key.hash ⟨info.source, info.amount, key.account⟩).mpr waits)
            exact inside _ listed
        | none =>
            refine (outside key fun member => ?_).trans (Table.get_empty key)
            obtain ⟨⟨hash, info⟩, listed, rfl⟩ := List.mem_map.mp member
            have stored := (fits.2 hash info).mp ((lists.entries _ _).mp listed)
            rw [waits] at stored
            cases stored
      rw [settles_ok]
      exact {
        version := rfl
        accounts := accounts_next db format (by decide)
        pending := ⟨by decide, fun key => by rw [List.foldl_map]; exact keyed key⟩
        blocks := blocks_next db format (by decide)
        blocksInfo := format.blocksInfo
        representation := fun _ => format.representation (by decide)
        sequence := fun _ => format.sequence (by decide) }

theorem format_carried (v : Nat) (db after : Database) (late : 6 ≤ v) (early : v ≤ 8) (format : InFormat s v db)
    (version : after.versionGet = v + 1) (accounts : after.accounts = db.accounts) (pending : after.pending = db.pending)
    (blocks : after.store.blocks = db.store.blocks) (info : after.store.blocksInfo = db.store.blocksInfo)
    (representation : after.store.representation = db.store.representation) (sequence : v < 8 → after.sequence = db.sequence) :
    InFormat s (v + 1) after where
  version := version
  accounts := by
    rw [accounts]
    exact accounts_next db format (by omega)
  pending := by
    rw [pending]
    exact pending_next db format (by omega)
  blocks := by
    rw [blocks]
    exact blocks_next db format (by omega)
  blocksInfo := by
    intro h
    have before := format.blocksInfo h
    rw [if_pos (by omega)] at before
    rw [info, if_pos (by omega), before]
  representation := by
    simp only [representationGet, representation]
    exact fun _ => format.representation (by omega)
  sequence := by
    intro next
    rw [sequence (by omega)]
    exact format.sequence (by omega)

theorem v6_to_v7 (format : InFormat s 6 db) : Settles (upgradeV6ToV7 db) fault (InFormat s 7) :=
  format_carried 6 db _ (by decide) (by decide) format rfl rfl rfl rfl rfl rfl fun _ => rfl

theorem v7_to_v8 (format : InFormat s 7 db) : Settles (upgradeV7ToV8 db) fault (InFormat s 8) :=
  format_carried 7 db _ (by decide) (by decide) format rfl rfl rfl rfl rfl rfl fun _ => rfl

theorem v8_to_v9 (env : Env) (junk : Account → Hash → Signature) (format : InFormat s 8 db) :
    Settles (upgradeV8ToV9 env db junk) fault (InFormat s 9) := by
  have sequence := format.sequence (by decide)
  refine settles_bind (db.sequence.settles_rows (fun _ _ => True) _ trivial ?_) ?_
  · intro _ account values votes found _ _
    refine settles_fold (fun _ _ => True) _ _ trivial ?_
    intro done value rest votes whole _
    have split : values = done ++ value :: rest := whole
    have listed : value ∈ values := split ▸ List.mem_append_right done List.mem_cons_self
    have long := sequence account values found value listed
    have read : readWordLE 8 64 value = some _ := if_pos long
    rw [read]
    trivial
  · intro votes _
    exact format_carried 8 db _ (by decide) (by decide) format rfl rfl rfl rfl rfl rfl fun early => absurd early (by decide)

end Untouched

section Versions

variable {env : Env} {L : Lattice} {s : Store} {rank : Hash → Nat} {top : Nat} [HashesApart env] (consistent : Consistent env L)
  (legacy : Legacy L) (ranked : Ranked rank top L) (agrees : Agrees L s) (fuel : Nat) (db : Database)

include consistent legacy ranked agrees in
theorem v1_to_v2 (format : InFormat s 1 db) : Settles (upgradeV1ToV2 env fuel db) (Starved (4 * top + 2 ≤ fuel)) (InFormat s 2) := by
  obtain ⟨next, holds, _⟩ := format_holds agrees format.blocks
  refine settles_bind (settles_fold (fun done accounts => Rewritten s 2 db.accounts accounts (done.map Prod.fst)) _ _ ?_ ?_) ?_
  · exact ⟨fun _ member => absurd member List.not_mem_nil, fun _ _ => rfl⟩
  · intro done entry rest accounts whole state
    obtain ⟨account, row⟩ := entry
    have listed : (account, row) ∈ db.accounts.rows := by
      apply List.mem_of_mem_filter
      rw [whole]
      exact List.mem_append_right done List.mem_cons_self
    have found := ((Table.lists_rows db.accounts).entries account row).mp listed
    obtain ⟨h, n, time, latest, owner, known, fits⟩ := row_owned agrees format found
    obtain ⟨rep, rfl⟩ := row_v1 fits
    have bounded := height_le_top consistent ranked h n latest.1
    refine settles_step rfl (settles_value (settles_enough (first_block_settles consistent legacy holds fuel h n latest.1) ?_) ?_)
    · intro enough
      omega
    · rw [settles_ok, List.map_append]
      exact rewritten_put state account _ _ known ⟨by decide, by decide, rep, rfl, fun late => absurd late (by decide)⟩
  · intro accounts state
    have all : ∀ account row, db.accounts.get account = some row →
        account ∈ (db.accounts.rows.filter fun row => row.1 ≠ 0).map Prod.fst := by
      intro account row found
      obtain ⟨h, n, time, latest, owner, _⟩ := row_owned agrees format found
      refine List.mem_map.mpr ⟨(account, row), List.mem_filter.mpr ⟨((Table.lists_rows db.accounts).entries account row).mpr found, ?_⟩,
        rfl⟩
      rw [decide_eq_true_eq, ← owner]
      exact stored_account_ne_zero consistent latest.1
    exact {
      version := rfl
      accounts := rewritten_all state all format.accounts
      pending := pending_next db format (by decide)
      blocks := blocks_next db format (by decide)
      blocksInfo := format.blocksInfo
      representation := fun late => absurd late (by decide)
      sequence := fun _ => format.sequence (by decide) }

include consistent ranked agrees in
theorem v2_to_v3 (format : InFormat s 2 db) : Settles (upgradeV2ToV3 env fuel db) (Starved (4 * top + 2 ≤ fuel)) (InFormat s 3) := by
  obtain ⟨next, holds, _⟩ := format_holds agrees format.blocks
  refine settles_bind
    (db.accounts.settles_rows (fun done out => Rewritten s 3 db.accounts out.1 done ∧ Weighing L s db.store done out.2) _ ?_ ?_) ?_
  · refine ⟨⟨fun _ member => absurd member List.not_mem_nil, fun _ _ => rfl⟩, rfl, fun r => ?_⟩
    rw [representationGet, Table.get_empty]
    rfl
  · intro done account row out found _ state
    obtain ⟨h, n, time, latest, rfl, known, fits⟩ := row_owned agrees format found
    obtain ⟨rep, rfl, _⟩ := row_v5 (by decide) (by decide) fits
    have bounded := height_le_top consistent ranked h n latest.1
    have blocks : BlocksHold L next out.2.blocks := by
      rw [state.2.rest]
      exact holds
    have nonzero : n.repBlock ≠ 0 := by
      obtain ⟨m, found, _⟩ := rep_block_stored consistent latest.1
      exact stored_ne_zero consistent _ m found
    obtain ⟨t, added, weighing⟩ := weighing_add consistent holds _ out.2 h n time latest.1 known state.2
    refine settles_step rfl (settles_value (settles_enough (representative_compute_settles consistent blocks fuel h n latest.1) ?_) ?_)
    · intro enough
      omega
    · refine settles_step (ensure_true _ nonzero) (settles_step added ?_)
      exact ⟨rewritten_put state.1 n.account _ _ known ⟨by decide, by decide, n.repBlock, rfl, fun _ => rfl⟩, weighing⟩
  · rintro ⟨accounts, t⟩ ⟨rewritten, weighing⟩
    have rest := weighing.rest
    dsimp only at rest rewritten weighing ⊢
    have blocks : t.blocks = db.store.blocks := by rw [rest]
    have info : t.blocksInfo = db.store.blocksInfo := by rw [rest]
    exact {
      version := rfl
      accounts := rewritten_all rewritten (Table.key_listed db.accounts) format.accounts
      pending := pending_next db format (by decide)
      blocks := fun kind h => by
        dsimp only
        rw [blocks]
        exact blocks_next db format (by decide) kind h
      blocksInfo := fun h => by
        dsimp only
        rw [info]
        exact format.blocksInfo h
      representation := fun _ r => (weighing.weights r).trans (weighed_all consistent agrees 2 db format r)
      sequence := fun _ => format.sequence (by decide) }

include consistent legacy ranked agrees in
theorem v4_to_v5 (format : InFormat s 4 db) : Settles (upgradeV4ToV5 env fuel db) (Starved (4 * top + 2 ≤ fuel)) (InFormat s 5) := by
  obtain ⟨next, holds, stale⟩ := format_holds agrees format.blocks
  refine settles_bind (db.accounts.settles_rows (fun done t => Linked L db.store done t) _ ?_ ?_) ?_
  · exact ⟨db.store.blocks, next, rfl, holds, fun y m found => (stale y m found).imp_right And.right,
      fun _ _ _ member => absurd member List.not_mem_nil⟩
  · intro done account row t found _ linked
    obtain ⟨h, n, time, latest, rfl, known, fits⟩ := row_owned agrees format found
    obtain ⟨rep, rfl, _⟩ := row_v5 (by decide) (by decide) fits
    exact settles_step rfl (linked_fill consistent legacy ranked fuel db.store done t h n latest linked)
  · rintro t ⟨blocks, next', rfl, holds', _, filled⟩
    rw [settles_ok]
    exact {
      version := rfl
      accounts := accounts_next db format (by decide)
      pending := pending_next db format (by decide)
      blocks := holds_format agrees next' blocks holds' fun y m found => filled y m found
        (owner_listed consistent agrees format y m found)
      blocksInfo := format.blocksInfo
      representation := fun _ => format.representation (by decide)
      sequence := fun _ => format.sequence (by decide) }

include consistent ranked agrees in
theorem v5_to_v6 (format : InFormat s 5 db) : Settles (upgradeV5ToV6 fuel db) (Starved (4 * top + 2 ≤ fuel)) (InFormat s 6) := by
  obtain ⟨next, holds, _⟩ := format_holds agrees format.blocks
  refine settles_bind (db.accounts.settles_rows (fun done headers => headers.map Prod.fst = done ∧
    ∀ header ∈ headers, s.accounts.get header.1 = some header.2) _ ?_ ?_) ?_
  · exact ⟨rfl, fun _ member => absurd member List.not_mem_nil⟩
  · intro done account row headers found _ state
    obtain ⟨h, n, time, latest, rfl, known, fits⟩ := row_owned agrees format found
    obtain ⟨rep, rfl, named⟩ := row_v5 (by decide) (by decide) fits
    have bounded := height_le_top consistent ranked h n latest.1
    refine settles_step rfl (settles_value (settles_enough (count_blocks_settles consistent holds fuel h n 0 latest.1) ?_) ?_)
    · intro enough
      omega
    · rw [settles_ok, List.map_append, state.1]
      refine ⟨rfl, fun header member => ?_⟩
      obtain earlier | now := List.mem_append.mp member
      · exact state.2 header earlier
      · rw [List.mem_singleton.mp now, known, named (by decide), Nat.zero_add]
        rfl
  · rintro headers ⟨same, right⟩
    have once : (headers.map Prod.fst).Nodup := by
      rw [same]
      exact (Table.lists_rows db.accounts).once
    obtain ⟨inside, outside⟩ :=
      Table.put_entries Prod.fst (fun header : Account × AccountInfo => AccountRow.current header.2) headers once db.accounts
    have rewritten :
      Rewritten s 6 db.accounts (headers.foldl (fun accounts header => accounts.put header.1 (.current header.2)) db.accounts)
        (headers.map Prod.fst) := by
      refine ⟨fun account member => ?_, outside⟩
      obtain ⟨header, listed, rfl⟩ := List.mem_map.mp member
      rw [inside header listed, right header listed]
      exact .some ⟨by decide, rfl⟩
    rw [same] at rewritten
    rw [settles_ok]
    exact {
      version := rfl
      accounts := rewritten_all rewritten (Table.key_listed db.accounts) format.accounts
      pending := pending_next db format (by decide)
      blocks := blocks_next db format (by decide)
      blocksInfo := format.blocksInfo
      representation := fun _ => format.representation (by decide)
      sequence := fun _ => format.sequence (by decide) }

include consistent legacy ranked agrees in
theorem v9_to_v10 (format : InFormat s 9 db) : Settles (upgradeV9ToV10 env fuel db) (Starved (4 * top + 2 ≤ fuel)) (InFormat s 10) := by
  obtain ⟨next, holds, right⟩ := format_holds agrees format.blocks
  have linked : BlocksHold L L.succ db.store.blocks :=
    holds_congr L next L.succ _ holds fun x n stored => (right x n stored).resolve_right fun early => absurd early.1 (by decide)
  refine settles_bind (db.accounts.settles_rows (fun done t => Marked L db.store done t) _ ?_ ?_) ?_
  · exact ⟨rfl, fun _ _ _ member => absurd member List.not_mem_nil, fun x _ => format.blocksInfo x⟩
  · intro done account row t found unseen marked
    obtain ⟨h, n, time, latest, rfl, known, fits⟩ := row_owned agrees format found
    cases row_current (by decide) fits
    refine settles_step rfl ?_
    split
    · exact marked_climb consistent legacy ranked linked fuel _ t h n latest unseen marked
    · next short => exact marked_short consistent _ t h n latest unseen (not_le.mp short) marked
  · intro t marked
    have same : t.blocks = db.store.blocks := by rw [marked.rest]
    have weights : t.representation = db.store.representation := by rw [marked.rest]
    rw [settles_ok]
    exact {
      version := rfl
      accounts := accounts_next db format (by decide)
      pending := pending_next db format (by decide)
      blocks := by
        dsimp only
        rw [same]
        exact holds_format agrees L.succ _ linked fun _ _ _ => rfl
      blocksInfo := fun x => by
        dsimp only
        rw [if_neg (by decide), agrees.checkpoints]
        cases stored : L.get x with
        | none =>
            rw [marked.ahead x fun m found => (nomatch stored.symm.trans found), Lattice.checkpoint, stored]
        | some m => exact marked.behind x m stored (owner_listed consistent agrees format x m stored)
      representation := by
        simp only [representationGet, weights]
        exact fun _ => format.representation (by decide)
      sequence := fun early => absurd early (by decide) }

include consistent legacy ranked agrees in
theorem upgrade_each (junk : Account → Hash → Signature) (v : Nat) (low : 1 ≤ v) (high : v ≤ 9) : ∃ upgrade,
    (upgrades env junk fuel)[v - 1]? = some upgrade ∧
    ∀ db, InFormat s v db → Settles (upgrade db) (Starved (4 * top + 2 ≤ fuel)) (InFormat s (v + 1)) := by
  interval_cases v
  · exact ⟨_, rfl, v1_to_v2 consistent legacy ranked agrees fuel⟩
  · exact ⟨_, rfl, v2_to_v3 consistent ranked agrees fuel⟩
  · exact ⟨_, rfl, fun db => v3_to_v4 db _⟩
  · exact ⟨_, rfl, v4_to_v5 consistent legacy ranked agrees fuel⟩
  · exact ⟨_, rfl, v5_to_v6 consistent ranked agrees fuel⟩
  · exact ⟨_, rfl, fun db => v6_to_v7 db _⟩
  · exact ⟨_, rfl, fun db => v7_to_v8 db _⟩
  · exact ⟨_, rfl, fun db => v8_to_v9 db _ env junk⟩
  · exact ⟨_, rfl, v9_to_v10 consistent legacy ranked agrees fuel⟩

include consistent legacy ranked agrees in
theorem do_upgrades_settles (junk : Account → Hash → Signature) (v : Nat) (low : 1 ≤ v) (high : v ≤ 9) (format : InFormat s v db) :
    Settles (doUpgrades env junk fuel db) (Starved (4 * top + 2 ≤ fuel)) (InFormat s 10) := by
  unfold doUpgrades
  rw [format.version, ensure_true _ ⟨low, Nat.le_succ_of_le high⟩, bind_ok]
  have count : ((upgrades env junk fuel).drop (v - 1)).length = 9 - (v - 1) := List.length_drop
  have run : Settles (((upgrades env junk fuel).drop (v - 1)).foldlM (fun db upgrade => upgrade db) db) (Starved (4 * top + 2 ≤ fuel))
      (InFormat s (v + ((upgrades env junk fuel).drop (v - 1)).length)) := by
    refine settles_fold (fun done db => InFormat s (v + done.length) db) _ db format ?_
    intro done upgrade rest db whole format
    have size := congrArg List.length whole
    rw [count, List.length_append, List.length_cons] at size
    obtain ⟨chosen, here, step⟩ := upgrade_each consistent legacy ranked agrees fuel junk (v + done.length) (by omega) (by omega)
    have same : (upgrades env junk fuel)[v + done.length - 1]? = some upgrade := by
      rw [show v + done.length - 1 =
        v - 1 + done.length by
          omega, ← List.getElem?_drop, whole, List.getElem?_append_right le_rfl, Nat.sub_self, List.getElem?_cons_zero]
    cases here.symm.trans same
    rw [List.length_append, List.length_singleton]
    exact step db format
  rw [count, show v + (9 - (v - 1)) = 10 by omega] at run
  exact run

end Versions

structure Rebuilt (s : Store) (db : Database) : Prop where
  version : db.versionGet = 10
  accounts : ∀ account, db.accounts.get account = (s.accounts.get account).map .current
  pending : db.pending = .byKey s.pending
  blocks : db.store.blocks = s.blocks
  blocksInfo : db.store.blocksInfo = s.blocksInfo
  representation : ∀ r, representationGet db.store r = representationGet s r

theorem format_rebuilt (s : Store) (db : Database) (format : InFormat s 10 db) : Rebuilt s db where
  version := format.version
  accounts := by
    intro account
    have fit := format.accounts account
    cases found : db.accounts.get account with
    | none =>
        rw [found] at fit
        rw [rel_none fit]
        rfl
    | some row =>
        rw [found] at fit
        obtain ⟨info, known, fits⟩ := rel_some fit
        rw [row_current (by decide) fits, known]
        rfl
  pending := by
    have fits := format.pending
    cases kept : db.pending with
    | byHash table =>
        rw [kept] at fits
        exact absurd fits.1 (by decide)
    | byKey table =>
        rw [kept] at fits
        exact congrArg PendingTable.byKey (Table.ext_get _ _ fits.2)
  blocks := by
    funext kind
    apply Table.ext_get
    intro h
    have fit := format.blocks kind h
    cases found : (db.store.blocks kind).get h with
    | none =>
        rw [found] at fit
        exact (rel_none fit).symm
    | some stored =>
        rw [found] at fit
        obtain ⟨value, known, fits⟩ := rel_some fit
        rw [known]
        exact congrArg some (fits.resolve_right fun early => absurd early.1 (by decide))
  blocksInfo := Table.ext_get _ _ format.blocksInfo
  representation := format.representation (by decide)

-- Whatever version the ledger was stored as, the upgrades end and give its tables back.
theorem upgrades_rebuild (env : Env) (apart : HashesApart env) (past : List Store) (s : Store)
    (history : History env (fun block => block.kind ≠ .sendBlockV2) past s) (junk : Account → Hash → Signature)
    (v : Nat) (db : Database) (low : 1 ≤ v) (high : v ≤ 9) (format : InFormat s v db) :
    ∃ bound, ∀ fuel, bound ≤ fuel → ∃ after, doUpgrades env junk fuel db = .ok after ∧ Rebuilt s after := by
  obtain ⟨L, remembers⟩ := history_remembers past s history
  have legacy := remembers_legacy env past s L remembers
  obtain ⟨rank, top, ranked⟩ := exists_ranked remembers.consistent
  refine ⟨4 * top + 2, fun fuel enough => ?_⟩
  obtain ⟨after, returned, format'⟩ := settles_returns
    (do_upgrades_settles remembers.consistent legacy ranked remembers.agrees fuel db junk v low high format) enough
  exact ⟨after, returned, format_rebuilt s after format'⟩

-- The hash of a send names its pending entry, which is why the account could be missing from the key.
theorem exists_by_hash (L : Lattice) (s : Store) (agrees : Agrees L s) : ∃ table : Table Hash PendingInfoV3,
    ∀ h info, table.get h = some info ↔ s.pending.get ⟨info.destination, h⟩ = some ⟨info.source, info.amount⟩ := by
  obtain ⟨waiting, lists⟩ := Table.exists_lists s.pending
  have once : (waiting.map fun entry => entry.1.hash).Nodup := by
    refine List.Nodup.map_on ?_ (List.Nodup.of_map Prod.fst lists.once)
    rintro ⟨⟨account, hash⟩, info⟩ listed ⟨⟨account', hash'⟩, info'⟩ listed' same
    dsimp only at same
    subst same
    have waits := (lists.entries _ _).mp listed
    have waits' := (lists.entries _ _).mp listed'
    rw [agrees.pending, pending_some_iff] at waits waits'
    obtain ⟨n, sent, _, rfl⟩ := waits
    obtain ⟨m, sent', _, rfl⟩ := waits'
    cases sent.1.symm.trans sent'.1
    cases sent.2.symm.trans sent'.2
    rfl
  obtain ⟨inside, outside⟩ := Table.put_entries (fun entry : PendingKey × PendingInfo => entry.1.hash)
    (fun entry => (⟨entry.2.source, entry.2.amount, entry.1.account⟩ : PendingInfoV3)) waiting once .empty
  refine ⟨_, fun h info => ⟨fun found => ?_, fun waits => inside _ ((lists.entries _ _).mpr waits)⟩⟩
  by_cases member : h ∈ waiting.map fun entry => entry.1.hash
  · obtain ⟨entry, listed, rfl⟩ := List.mem_map.mp member
    cases found.symm.trans (inside entry listed)
    exact (lists.entries _ _).mp listed
  · cases found.symm.trans ((outside h member).trans (Table.get_empty h))

theorem exists_v1 (L : Lattice) (s : Store) (agrees : Agrees L s) : ∃ db, InFormat s 1 db := by
  obtain ⟨accounts, rows⟩ :=
    Table.exists_map (fun info : AccountInfo => AccountRow.v1 ⟨info.head, 0, info.balance, info.modified⟩) s.accounts
  obtain ⟨waiting, hashed⟩ := exists_by_hash L s agrees
  choose blocks values using fun kind => Table.exists_map (fun value : Bytes => value.take
    (value.length - 32) ++ wordBytes 32 (0 : Hash))
    (s.blocks kind)
  refine ⟨⟨none, accounts, .byHash waiting, .empty, .empty,
    { s with blocks := blocks, blocksInfo := .empty, representation := .empty }⟩, ?_⟩
  exact {
    version := rfl
    accounts := fun account => by
      rw [rows]
      cases s.accounts.get account with
      | none => exact .none
      | some info => exact .some ⟨le_rfl, 0, rfl⟩
    pending := ⟨by decide, hashed⟩
    blocks := fun kind h => by
      rw [values]
      cases (s.blocks kind).get h with
      | none => exact .none
      | some value => exact .some (Or.inr ⟨by decide, rfl⟩)
    blocksInfo := fun h => Table.get_empty h
    representation := fun late => absurd late (by decide)
    sequence := fun _ account values found => nomatch (Table.get_empty account).symm.trans found }

theorem upgrades_rebuild_sample : ∃ past s db, History sampleEnv (fun block => block.kind ≠ .sendBlockV2) past s ∧
    blockExists s (sampleOpenMore.hash sampleEnv) = true ∧ InFormat s 1 db ∧
    ∃ bound, ∀ fuel, bound ≤ fuel → ∃ after, doUpgrades sampleEnv (fun _ _ => 0) fuel db = .ok after ∧ Rebuilt s after := by
  obtain ⟨s, replay⟩ := sample_replayed
  obtain ⟨past, history⟩ := replay_history (fun block => block.kind ≠ .sendBlockV2) (by decide) replay
  obtain ⟨L, remembers⟩ := history_remembers past s history
  obtain ⟨db, format⟩ := exists_v1 L s remembers.agrees
  exact ⟨past, s, db, history, replay_stored sampleLog s (by decide) replay sampleOpenMore (by simp [sampleLog]), format,
    upgrades_rebuild sampleEnv sample_apart past s history (fun _ _ => 0) 1 db le_rfl (by decide) format⟩

end Rai
