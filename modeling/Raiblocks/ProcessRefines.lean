import Raiblocks.ProcessSpec

set_option autoImplicit false

namespace Rai

open Kit

-- What may stop `ledger::process`: too little fuel for the balance of a change
-- block's predecessor or for the load of a contract, or the assertion about the representative.
def ProcessFault (env : Env) (L : Lattice) (top fuel : Nat) (block : Block) (fault : Fault) : Prop :=
  Starved (Legacy L ∧ 4 * top ≤ fuel ∧ block.loads env fuel = true) fault ∨ fault = .abort ∧ NamesNobody block

-- What `ledger::process` has computed elsewhere: the balance below a change block, and the load of a contract.
structure Fueled (env : Env) (fuel : Nat) (s : Store) (block : Block) : Prop where
  balance : block.kind = .changeBlock → ∃ balance, ledgerBalance env fuel s block.previous = .ok balance
  loads : block.loads env fuel = true

theorem vm_load_set (env : Env) (fuel : Nat) (s : Store) (account : Account) (code : Bytes) :
    vmLoad env fuel (accountSetCode s account code) account = if env.loads fuel code then .ok () else .error .fuel := by
  simp [vmLoad, accountGetCode, accountSetCode]

section Linking

variable {env : Env} {L : Lattice} {s : Store} (consistent : Consistent env L)

include consistent in
theorem attach_on_latest [HashesApart env] (h : Hash) (n before : Note) (fresh : L.get h = none) (hashed : n.block.hash env = h)
    (latest : L.Latest n.block.previous before) (entry : Entry L h n)
    (signed : env.validateMessage n.account h n.block.signature = false)
    (unspent : n.block.source ≠ 0 → ¬ L.Received n.block.source) : Attach env L h n := by
  have nonzero := stored_ne_zero consistent _ before latest.1
  refine ⟨fresh, hashed, entry, signed, ?_, ?_⟩
  · intro k m stored _ same
    exact (succ_zero_iff consistent _ nonzero).mp latest.2 k m stored same.symm
  · intro k m stored spends same
    exact unspent spends ⟨k, m, stored, same.symm⟩

theorem attach_unowned (h : Hash) (n : Note) (fresh : L.get h = none) (hashed : n.block.hash env = h) (entry : Entry L h n)
    (signed : env.validateMessage n.account h n.block.signature = false)
    (unowned : ∀ k m, L.get k = some m → m.account ≠ n.account) (unspent : ¬ L.Received n.block.source) : Attach env L h n := by
  refine ⟨fresh, hashed, entry, signed, ?_, ?_⟩
  · intro k m stored owner
    exact absurd owner.symm (unowned k m stored)
  · intro k m stored _ same
    exact unspent ⟨k, m, stored, same.symm⟩

include consistent in
theorem block_put_attach [HashesApart env] (h : Hash) (n : Note) (fault : Fault → Prop) (attach : Attach env L h n)
    (holds : BlocksHold L L.succ s.blocks) :
    Settles (blockPut env s h n.block 0) fault fun s' => ∃ blocks, s' = { s with blocks := blocks } ∧
      BlocksHold (L.put h n) (Lattice.succ (L.put h n)) blocks := by
  obtain ⟨blocks, put, linked⟩ := block_put_holds env L L.succ s h 0 n holds
    (fun m stored => by rw [attach.fresh] at stored; cases stored) attach.hashed (Or.inl rfl)
    (attach_previous_ne attach) fun later => by
      obtain ⟨before, stored, _⟩ := entry_before attach.entry later
      simp [stored]
  rw [put, settles_ok]
  exact ⟨blocks, rfl, blocks_attach consistent attach blocks linked⟩

theorem rep_stored (x : Hash) (m : Note) (stored : L.get x = some m) : L.rep x = m.block.representative := by
  rw [Lattice.rep, stored]
  rfl

section Checks

variable (agrees : Agrees L s) (block : Block) (uninit : ProcessReturn) (fault : Fault → Prop)
  (rest : Except Fault (Store × ProcessReturn))
include agrees

theorem known_settles (enters : L.get (block.hash env) = none → Settles rest fault (Processed env L s block)) :
    Settles (if blockExists s (block.hash env) = true then .ok (s, { uninit with code := .old }) else rest) fault
      (Processed env L s block) := by
  cases found : L.get (block.hash env) with
  | some m =>
      rw [if_pos (exists_stored agrees.blocks found), settles_ok]
      exact Or.inr ⟨rfl, .old (by simp [found])⟩
  | none =>
      rw [if_neg (by simp [exists_absent agrees.blocks _ found])]
      exact enters found

theorem source_settles (spends : block.kind = .receiveBlock ∨ block.kind = .openBlock)
    (enters : L.get block.source ≠ none → Settles rest fault (Processed env L s block)) :
    Settles (if ¬ blockExists s block.source = true then .ok (s, { uninit with code := .gapSource }) else rest) fault
      (Processed env L s block) := by
  by_cases origin : L.get block.source = none
  · rw [if_pos (by simp [exists_absent agrees.blocks _ origin]), settles_ok]
    exact Or.inr ⟨rfl, .gapSource spends origin⟩
  · rw [if_neg (by simp [(exists_iff agrees.blocks _).mpr origin])]
    exact enters origin

omit agrees in
theorem signature_settles (before : Note) (later : block.kind ≠ .openBlock) (stored : L.get block.previous = some before)
    (enters : env.validateMessage before.account (block.hash env) block.signature = false →
      Settles rest fault (Processed env L s block)) :
    Settles (if env.validateMessage before.account (block.hash env) block.signature = true
      then .ok (s, { uninit with code := .badSignature }) else rest) fault (Processed env L s block) := by
  by_cases bad : env.validateMessage before.account (block.hash env) block.signature = true
  · rw [if_pos bad, settles_ok]
    exact Or.inr ⟨rfl, .badSignature before later stored bad⟩
  · rw [if_neg bad]
    exact enters (Bool.eq_false_iff.mpr bad)

end Checks

include consistent in
theorem enter_settles [HashesApart env] (agrees : Agrees L s) (block : Block) (later : block.kind ≠ .openBlock) (uninit : ProcessReturn)
    (account : Account) (owner : frontierGet s block.previous = account) (body : Account → Except Fault (Store × ProcessReturn))
    (fault : Fault → Prop) (enters : ∀ before, L.get (block.hash env) = none → L.Latest block.previous before →
      Settles (body before.account) fault (Processed env L s block)) :
    Settles (if blockExists s (block.hash env) = true then .ok (s, { uninit with code := .old })
      else if ¬ blockExists s block.previous = true then .ok (s, { uninit with code := .gapPrevious })
      else if account = 0 then .ok (s, { uninit with code := .fork })
      else body account) fault (Processed env L s block) := by
  refine known_settles agrees block uninit fault _ fun fresh => ?_
  cases below : L.get block.previous with
  | none =>
      rw [if_pos (by simp [exists_absent agrees.blocks _ below]), settles_ok]
      exact Or.inr ⟨rfl, .gapPrevious later below⟩
  | some before =>
      rw [if_neg (by simp [exists_stored agrees.blocks below])]
      by_cases last : L.succ block.previous = 0
      · rw [← owner, frontier_latest agrees _ before ⟨below, last⟩, if_neg (stored_account_ne_zero consistent below)]
        exact enters before fresh ⟨below, last⟩
      · rw [← owner, frontier_covered agrees _ fun n latest => last latest.2, if_pos rfl, settles_ok]
        exact Or.inr ⟨rfl, .fork before later below last⟩

include consistent in
theorem ending_settles [HashesApart env] (agrees : Agrees L s) (block : Block) (later : block.kind ≠ .openBlock)
    (uninit : ProcessReturn) (account : Account) (owner : frontierGet s block.previous = account)
    (body : Account → Except Fault (Store × ProcessReturn)) (fault : Fault → Prop)
    (enters : ∀ before, L.Latest block.previous before → Settles (body before.account) fault (Processed env L s block)) :
    Settles (if account = 0 then .ok (s, { uninit with code := if blockExists s block.previous = true then .fork else .gapPrevious })
      else body account) fault (Processed env L s block) := by
  by_cases covered : ∀ before, ¬ L.Latest block.previous before
  · rw [← owner, frontier_covered agrees _ covered, if_pos rfl, settles_ok]
    refine Or.inr ⟨rfl, ?_⟩
    cases below : L.get block.previous with
    | none =>
        rw [if_neg (by simp [exists_absent agrees.blocks _ below])]
        exact .gapPrevious later below
    | some before =>
        rw [if_pos (exists_stored agrees.blocks below)]
        exact .fork before later below fun last => covered before ⟨below, last⟩
  · obtain ⟨before, latest⟩ := not_forall_not.mp covered
    rw [← owner, frontier_latest agrees _ before latest, if_neg (stored_account_ne_zero consistent latest.1)]
    exact enters before latest

end Linking

theorem frontier_row {L : Lattice} {s : Store} (agrees : Agrees L s) (h : Hash) (n : Note) (latest : L.Latest h n) :
    s.frontiers.get h = some n.account :=
  (agrees.frontiers h).trans ((frontier_some_iff h n.account).mpr ⟨n, latest, rfl⟩)

section Weights

variable {env : Env} {L : Lattice} {h : Hash} {n : Note} [HashesApart env] (consistent : Consistent env L)
  (attach : Attach env L h n)
include consistent attach

theorem weight_inherit (before m : Note) (stored : L.get n.block.previous = some before) (owner : n.account = before.account)
    (inherits : n.repBlock = before.repBlock) (repStored : L.get before.repBlock = some m) (r : Account) :
    Lattice.weight (L.put h n) r = L.weight r + if r = m.block.representative then n.balance - before.balance else 0 := by
  have same : Lattice.share (L.put h n) r n = if r = m.block.representative then n.balance else 0 := by
    rw [Lattice.share, inherits, rep_below _ (below_put L h n attach.fresh) _ m repStored, rep_stored _ m repStored]
    simp only [eq_comm]
  rw [weight_attach_later consistent attach r before stored owner, same, Lattice.share, rep_stored _ m repStored]
  by_cases mine : r = m.block.representative
  · rw [if_pos mine, if_pos mine, if_pos mine.symm]
    ring
  · rw [if_neg mine, if_neg mine, if_neg (Ne.symm mine)]
    ring

omit [HashesApart env] consistent attach in
theorem share_own (own : n.repBlock = h) (r : Account) :
    Lattice.share (L.put h n) r n = if r = n.block.representative then n.balance else 0 := by
  have named : Lattice.rep (L.put h n) h = n.block.representative := rep_stored (L := L.put h n) h n (Table.get_put_self L h n)
  rw [Lattice.share, own, named]
  simp only [eq_comm]

theorem weight_change (before m : Note) (stored : L.get n.block.previous = some before) (owner : n.account = before.account)
    (own : n.repBlock = h) (repStored : L.get before.repBlock = some m) (r : Account) :
    Lattice.weight (L.put h n) r = L.weight r + (if r = n.block.representative then n.balance else 0) +
      (if r = m.block.representative then 0 - before.balance else 0) := by
  rw [weight_attach_later consistent attach r before stored owner, share_own own r, Lattice.share,
    rep_stored _ m repStored]
  by_cases mine : r = m.block.representative
  · rw [if_pos mine, if_pos mine.symm]
    ring
  · rw [if_neg mine, if_neg (Ne.symm mine)]
    ring

theorem weight_open (opening : n.block.previous = 0) (own : n.repBlock = h) (r : Account) :
    Lattice.weight (L.put h n) r = L.weight r + (if r = n.block.representative then n.balance else 0) := by
  rw [weight_attach_open consistent attach r opening, share_own own r]

end Weights

theorem grew_nothing (weights : Table Account Amount) (q : Account) (weight : Amount) (present : weights.get q ≠ none) (r : Account) :
    (weights.put q weight).get r ≠ none ↔ weights.get r ≠ none := by
  rw [Table.get_put]
  split
  · next same => simp [same, present]
  · exact Iff.rfl

theorem grew_named (weights : Table Account Amount) (q : Account) (weight : Amount) (named : q ≠ 0) (r : Account) :
    (weights.put q weight).get r ≠ none ↔ weights.get r ≠ none ∨ r ≠ 0 ∧ q = r := by
  rw [Table.get_put]
  split
  · next same =>
      subst same
      exact iff_of_true (Option.some_ne_none _) (Or.inr ⟨named, rfl⟩)
  · next other =>
      constructor
      · exact Or.inl
      · rintro (present | ⟨_, same⟩)
        · exact present
        · exact absurd same.symm other

section Kinds

variable {env : Env} {L : Lattice} {s : Store} {rank : Hash → Nat} {top : Nat} [apart : HashesApart env]
  (consistent : Consistent env L) (agrees : Agrees L s) (clock : Hash → Nat) (uninit : ProcessReturn)
include consistent agrees

theorem process_send_settles (block : Block) (previous : Hash) (destination : Account) (balance : Amount) (fault : Fault → Prop)
    (fields : block.hashables = .sendBlock previous destination balance) :
    Settles (processSend env clock uninit s block previous destination balance) fault (Processed env L s block) := by
  have prior : block.previous = previous := by simp [Block.previous, fields]
  have later : block.kind ≠ .openBlock := by simp [Block.kind, fields]
  unfold processSend
  rw [← prior]
  generalize owner : frontierGet s block.previous = account
  apply enter_settles consistent agrees block later uninit account owner
  intro before fresh latest
  refine signature_settles block uninit _ _ before later latest.1 fun signed => ?_
  obtain ⟨time, known⟩ := account_latest consistent agrees _ before latest
  rw [known, require_some, bind_ok, ensure_true _ (Note.info_head _ _ _), bind_ok]
  simp only [Note.info_balance, Note.info_repBlock, Note.info_blockCount]
  by_cases short : ¬ balance ≤ before.balance
  · rw [if_pos short, settles_ok]
    exact Or.inr ⟨rfl, .overspend previous destination balance before fields (prior ▸ latest.1) short⟩
  rw [if_neg short]
  -- The send is good: its note, and the block it is counted by.
  let n : Note := before.follow block balance (before.balance - balance)
  have attach : Attach env L (block.hash env) n := by
    apply attach_on_latest consistent _ n before fresh rfl latest _ signed
    · simp [n, Note.follow, Block.source, fields]
    · simp only [Entry, n, Note.follow, fields]
      exact ⟨before, prior ▸ latest.1, not_not.mp short, rfl⟩
  obtain ⟨m, repStored, _, _, _, named, _⟩ := rep_block_stored consistent latest.1
  refine settles_step (representation_add_ok _ _ _ m agrees.blocks repStored named) ?_
  refine settles_bind (block_put_attach consistent _ n fault attach agrees.blocks) ?_
  rintro _ ⟨blocks, rfl, holds⟩
  refine settles_step (change_latest_known clock _ _ _ _ _ _ L.digest _ agrees.checksum known (apart.zero block)) ?_
  refine settles_step (frontier_del_ok _ (frontier_row agrees _ before latest)) ?_
  refine Or.inl ⟨n, rfl, attach, ?_, ?_, rfl, rfl, fun _ => rfl, rfl, rfl, fun _ => rfl⟩
  · refine agrees_later consistent attach s _ (clock _) before agrees latest.1 rfl holds rfl rfl rfl rfl ?_ ?_
    · exact pending_attach_send consistent attach _ agrees.pending destination (by simp [n, Note.follow, Block.recipient, fields])
    · intro r
      have moved : 0 - (before.balance - balance) = n.balance - before.balance := by
        change _ = balance - before.balance
        ring
      rw [weight_inherit consistent attach before m latest.1 rfl rfl repStored r, ← agrees.weights r, ← moved]
      exact representation_get_add s _ r _
  · intro exact
    refine exact_unnamed L s _ _ n fresh exact (by simp [n, Note.follow, Block.representative, fields]) ?_
    exact grew_nothing s.representation _ _ (exact_named L s exact _ m repStored named)

theorem process_send_v2_settles (fuel : Nat) (block : Block) (previous : Hash) (destination : Account) (action : Bytes)
    (fault : Fault → Prop) (fields : block.hashables = .sendBlockV2 previous destination action)
    (starves : ¬ block.loads env fuel = true → fault .fuel) :
    Settles (processSendV2 env fuel clock uninit s block previous destination action) fault (Processed env L s block) := by
  have prior : block.previous = previous := by simp [Block.previous, fields]
  have later : block.kind ≠ .openBlock := by simp [Block.kind, fields]
  unfold processSendV2
  rw [← prior]
  generalize owner : frontierGet s block.previous = account
  apply enter_settles consistent agrees block later uninit account owner
  intro before fresh latest
  refine signature_settles block uninit _ _ before later latest.1 fun signed => ?_
  obtain ⟨time, known⟩ := account_latest consistent agrees _ before latest
  rw [known, require_some, bind_ok, ensure_true _ (Note.info_head _ _ _), bind_ok]
  simp only [Note.info_balance, Note.info_repBlock, Note.info_blockCount]
  let n : Note := before.follow block before.balance 0
  have attach : Attach env L (block.hash env) n := by
    apply attach_on_latest consistent _ n before fresh rfl latest _ signed
    · simp [n, Note.follow, Block.source, fields]
    · simp only [Entry, n, Note.follow, fields]
      exact ⟨before, prior ▸ latest.1, rfl⟩
  obtain ⟨m, repStored, _⟩ := rep_block_stored consistent latest.1
  have asked : block.loads env fuel = env.loads fuel action := by simp [Block.loads, fields]
  rw [asked] at starves
  by_cases loads : env.loads fuel action = true
  case neg => exact settles_stop ((vm_load_set env fuel s _ action).trans (if_neg loads)) (starves loads)
  refine settles_step ((vm_load_set env fuel s _ action).trans (if_pos loads)) ?_
  refine settles_bind (block_put_attach consistent _ n fault attach agrees.blocks) ?_
  rintro _ ⟨blocks, rfl, holds⟩
  refine settles_step (change_latest_known clock _ _ _ _ _ _ L.digest _ agrees.checksum known (apart.zero block)) ?_
  refine settles_step (frontier_del_ok _ (frontier_row agrees _ before latest)) ?_
  have contract : block.kind = .sendBlockV2 := by simp [Block.kind, fields]
  refine Or.inl ⟨n, rfl, attach, ?_, ?_, rfl, rfl, absurd contract, rfl, rfl, absurd contract⟩
  · refine agrees_later consistent attach s _ (clock _) before agrees latest.1 rfl holds rfl rfl rfl rfl ?_ ?_
    · exact pending_attach_other consistent attach _ agrees.pending (by simp [n, Note.follow, Block.recipient, fields])
        (by simp [n, Note.follow, Block.source, fields])
    · intro r
      rw [weight_inherit consistent attach before m latest.1 rfl rfl repStored r]
      have kept : n.balance - before.balance = 0 := sub_self before.balance
      rw [kept, ite_self, add_zero]
      exact agrees.weights r
  · intro exact
    exact exact_unnamed L s _ _ n fresh exact (by simp [n, Note.follow, Block.representative, fields]) fun _ => Iff.rfl

theorem process_receive_settles (block : Block) (previous source : Hash) (fault : Fault → Prop)
    (fields : block.hashables = .receiveBlock previous source) :
    Settles (processReceive env clock uninit s block previous source) fault (Processed env L s block) := by
  have prior : block.previous = previous := by simp [Block.previous, fields]
  have spent : block.source = source := by simp [Block.source, fields]
  have kind : block.kind = .receiveBlock := by simp [Block.kind, fields]
  have later : block.kind ≠ .openBlock := by simp [kind]
  unfold processReceive
  rw [← prior, ← spent]
  refine known_settles agrees block uninit fault _ fun fresh => ?_
  refine source_settles agrees block uninit fault _ (Or.inl kind) fun origin => ?_
  generalize owner : frontierGet s block.previous = account
  apply ending_settles consistent agrees block later uninit account owner
  intro before latest
  refine signature_settles block uninit _ _ before later latest.1 fun signed => ?_
  obtain ⟨time, known⟩ := account_latest consistent agrees _ before latest
  simp only [known, Option.getD_some, Note.info_head, Note.info_balance, Note.info_repBlock, Note.info_blockCount, ne_eq,
    not_true_eq_false, if_false]
  cases waiting : s.pending.get ⟨before.account, block.source⟩ with
  | none =>
      rw [settles_ok]
      refine Or.inr ⟨rfl, .unreceivable previous source before fields (prior ▸ latest.1) (spent ▸ origin) ?_⟩
      rw [← spent, ← agrees.pending, waiting]
  | some pending =>
  obtain ⟨sent, sentTo, unspent, rfl⟩ := (pending_some_iff ⟨before.account, block.source⟩ pending).mp
    ((agrees.pending _).symm.trans waiting)
  let n : Note := before.follow block (before.balance + sent.amount) sent.amount
  have attach : Attach env L (block.hash env) n := by
    apply attach_on_latest consistent _ n before fresh rfl latest _ signed (fun _ => unspent)
    simp only [Entry, n, Note.follow, fields]
    exact ⟨before, sent, prior ▸ latest.1, spent ▸ sentTo, rfl⟩
  obtain ⟨m, repStored, _, _, _, named, _⟩ := rep_block_stored consistent latest.1
  refine settles_step (ensure_true _ (account_present consistent agrees _ sent sentTo.1)) ?_
  refine settles_step (pending_del_ok _ _ _ waiting) ?_
  refine settles_bind (block_put_attach consistent _ n fault attach agrees.blocks) ?_
  rintro _ ⟨blocks, rfl, holds⟩
  refine settles_step (change_latest_known clock _ _ _ _ _ _ L.digest _ agrees.checksum known (apart.zero block)) ?_
  have kept := below_put L _ n attach.fresh _ m repStored
  refine settles_step (representation_add_ok _ _ _ m holds kept named) ?_
  refine settles_step (frontier_del_ok _ (frontier_row agrees _ before latest)) ?_
  refine Or.inl ⟨n, rfl, attach, ?_, ?_, rfl, rfl, fun _ => rfl, rfl, rfl, fun _ => rfl⟩
  · refine agrees_later consistent attach s _ (clock _) before agrees latest.1 rfl holds rfl rfl rfl rfl ?_ ?_
    · exact pending_attach_receive consistent attach _ agrees.pending (by simp [n, Note.follow, Block.recipient, fields])
        sent sentTo
    · intro r
      have moved : sent.amount = n.balance - before.balance := by
        change _ = before.balance + sent.amount - before.balance
        ring
      rw [weight_inherit consistent attach before m latest.1 rfl rfl repStored r, ← agrees.weights r, ← moved]
      exact representation_get_add s _ r _
  · intro exact
    refine exact_unnamed L s _ _ n fresh exact (by simp [n, Note.follow, Block.representative, fields]) ?_
    exact grew_nothing s.representation _ _ (exact_named L s exact _ m repStored named)

theorem process_open_settles (block : Block) (source : Hash) (representative account : Account) (fault : Fault → Prop)
    (fields : block.hashables = .openBlock source representative account)
    (stops : NamesNobody block → fault .abort) :
    Settles (processOpen env clock uninit s block source account) fault (Processed env L s block) := by
  have spent : block.source = source := by simp [Block.source, fields]
  have kind : block.kind = .openBlock := by simp [Block.kind, fields]
  have first : block.previous = 0 := open_previous block kind
  unfold processOpen
  rw [← spent]
  refine known_settles agrees block uninit fault _ fun fresh => ?_
  refine source_settles agrees block uninit fault _ (Or.inr kind) fun origin => ?_
  refine settles_unless (fun bad => Or.inr ⟨rfl, .badOpening source representative account fields bad⟩) fun good => ?_
  have opened : (s.accounts.get account).isSome = true → Refused env L block .fork := by
    intro present
    obtain ⟨info, known⟩ := Option.isSome_iff_exists.mp present
    obtain ⟨x, m, latest, rfl, _⟩ := account_owned agrees known
    exact .opened source representative x m latest.1 fields
  refine settles_unless (fun present => Or.inr ⟨rfl, opened present⟩) fun absent => ?_
  have unowned : ∀ x m, L.get x = some m → m.account ≠ account := by
    rintro x m stored rfl
    exact absent (account_present consistent agrees x m stored)
  cases waiting : s.pending.get ⟨account, block.source⟩ with
  | none =>
      rw [settles_ok]
      refine Or.inr ⟨rfl, .unopenable source representative account fields (spent ▸ origin) ?_⟩
      rw [← spent, ← agrees.pending, waiting]
  | some pending =>
  obtain ⟨sent, sentTo, unspent, rfl⟩ := (pending_some_iff ⟨account, block.source⟩ pending).mp
    ((agrees.pending _).symm.trans waiting)
  by_cases burned : account = burnAccount
  · simp only [if_pos burned, settles_ok]
    exact Or.inr ⟨rfl, .openedBurnAccount source representative (burned ▸ fields)⟩
  simp only [if_neg burned]
  let n : Note := ⟨block, account, block.hash env, block.hash env, 1, sent.amount, sent.amount⟩
  have proper : block.previous ≠ block.hash env := by
    rw [first]
    exact (apart.zero block).symm
  obtain ⟨blocks, put, linked⟩ := block_put_holds env L L.succ { s with pending := s.pending.del ⟨account, block.source⟩ }
    (block.hash env) 0 n agrees.blocks (fun m stored => by rw [fresh] at stored; cases stored) rfl (Or.inl rfl) proper
    (fun later => absurd kind later)
  have written : (L.put (block.hash env) n).get (block.hash env) = some n := Table.get_put_self L _ n
  have read : blockGet { s with pending := s.pending.del ⟨account, block.source⟩, blocks := blocks } (block.hash env) =
      .ok (some block) := get_legacy linked _ n written (by simp [n, kind])
  refine settles_step (ensure_true _ (account_present consistent agrees _ sent sentTo.1)) ?_
  refine settles_step (pending_del_ok _ _ _ waiting) ?_
  refine settles_step put ?_
  refine settles_step (change_latest_new clock _ _ _ _ _ _ L.digest block agrees.checksum
    (account_absent agrees account unowned) read kind (apart.zero block) (by decide)) ?_
  by_cases nobody : representative = 0
  · have burnt : NamesNobody n.block := ⟨Or.inl kind, by simp [n, Block.representative, fields, nobody]⟩
    exact settles_stop (representation_add_nobody _ _ _ n linked written burnt) (stops burnt)
  have attach : Attach env L (block.hash env) n := by
    apply attach_unowned _ n fresh rfl _ (Bool.eq_false_iff.mpr good) unowned unspent
    simp only [Entry, n, fields]
    exact ⟨nobody, burned, sent, spent ▸ sentTo, rfl⟩
  have named : n.block.representative ≠ 0 := by simpa [n, Block.representative, fields] using nobody
  refine settles_step (representation_add_ok _ _ _ n linked written named) ?_
  refine Or.inl ⟨n, rfl, attach, ?_, ?_, rfl, rfl, fun _ => rfl, rfl, rfl, fun _ => rfl⟩
  · have holds := blocks_attach consistent attach _ linked
    refine agrees_first consistent attach s _ (clock _) agrees first holds rfl rfl rfl rfl ?_ ?_
    · exact pending_attach_receive consistent attach _ agrees.pending (by simp [n, Block.recipient, fields]) sent sentTo
    · intro r
      rw [weight_open consistent attach first rfl r, ← agrees.weights r]
      exact representation_get_add s _ r _
  · intro exact
    refine exact_attach L s _ _ n fresh exact fun r => ?_
    exact grew_named s.representation _ _ named r

-- While a change is being stored, the balance below it is computed from the new tables.
theorem reads_put (h : Hash) (n : Note) (next : Hash → Hash) (blocks : Kind → Table Hash Bytes) (fresh : L.get h = none)
    (hashed : n.block.hash env = h) (holds : BlocksHold (L.put h n) next blocks) : Reads env L { s with blocks := blocks } := by
  refine ⟨?_, ?_, (agrees_reads consistent agrees).checkpoints⟩
  · intro x m stored
    exact get_reads_as (s := { s with blocks := blocks }) holds x m (below_put L h n fresh x m stored)
  · apply get_absent (s := { s with blocks := blocks }) holds
    rw [Table.get_put_ne L h _ n]
    · exact account_not_stored consistent _ (Or.inl rfl)
    · rintro same
      exact apart.account n.block _ (Or.inl rfl) (hashed.trans same.symm)

theorem change_tail_settles {block : Block} {previous : Hash} {representative : Account} {before : Note} {time : Nat}
    (blocks : Kind → Table Hash Bytes) (fault : Fault → Prop) (fields : block.hashables = .changeBlock previous representative)
    (fresh : L.get (block.hash env) = none) (latest : L.Latest block.previous before)
    (known : s.accounts.get before.account = some (before.info block.previous time))
    (signed : env.validateMessage before.account (block.hash env) block.signature = false)
    (linked : BlocksHold (L.put (block.hash env) { before.follow block before.balance 0 with repBlock := block.hash env })
      (fun x => if x = block.hash env then 0 else if x = block.previous ∧ block.kind ≠ .openBlock then block.hash env
      else L.succ x) blocks)
    (aborts : NamesNobody block → fault .abort) :
    Settles (do
      let s ← representationAdd { s with blocks := blocks } (block.hash env) before.balance
      let s ← representationAdd s before.repBlock (0 - before.balance)
      let s ← changeLatest clock s before.account (block.hash env) (block.hash env) before.balance (before.height + 1)
      let s ← frontierDel s block.previous
      .ok (frontierPut s (block.hash env) before.account,
        { uninit with code := .progress, account := before.account, amount := 0 })) fault fun out => ∃ n,
        Accepted env L s block n out := by
  have prior : block.previous = previous := by simp [Block.previous, fields]
  let n : Note := { before.follow block before.balance 0 with repBlock := block.hash env }
  have written : (L.put (block.hash env) n).get (block.hash env) = some n := Table.get_put_self L _ n
  by_cases nobody : representative = 0
  · have burnt : NamesNobody n.block := ⟨Or.inr (by simp [n, Note.follow, Block.kind, fields]),
      by simp [n, Note.follow, Block.representative, fields, nobody]⟩
    exact settles_stop (representation_add_nobody _ _ _ n linked written burnt) (aborts burnt)
  have attach : Attach env L (block.hash env) n := by
    apply attach_on_latest consistent _ n before fresh rfl latest _ signed
    · simp [n, Note.follow, Block.source, fields]
    · simp only [Entry, n, Note.follow, fields]
      exact ⟨nobody, before, prior ▸ latest.1, rfl⟩
  have named : n.block.representative ≠ 0 := by simpa [n, Note.follow, Block.representative, fields] using nobody
  obtain ⟨m, repStored, _, _, _, oldNamed, _⟩ := rep_block_stored consistent latest.1
  have kept := below_put L _ n attach.fresh _ m repStored
  refine settles_step (representation_add_ok _ _ _ n linked written named) ?_
  refine settles_step (representation_add_ok _ _ _ m linked kept oldNamed) ?_
  refine settles_step (change_latest_known clock _ _ _ _ _ _ L.digest _ agrees.checksum known (apart.zero block)) ?_
  refine settles_step (frontier_del_ok _ (frontier_row agrees _ before latest)) ?_
  refine ⟨n, rfl, attach, ?_, ?_, rfl, rfl, fun _ => rfl, rfl, rfl, fun _ => rfl⟩
  · refine agrees_later consistent attach s _ (clock _) before agrees latest.1 rfl
      (blocks_attach consistent attach _ linked) rfl rfl rfl rfl ?_ ?_
    · exact pending_attach_other consistent attach _ agrees.pending (by simp [n, Note.follow, Block.recipient, fields])
        (by simp [n, Note.follow, Block.source, fields])
    · intro r
      rw [weight_change consistent attach before m latest.1 rfl rfl repStored r, ← agrees.weights r]
      refine (representation_get_add _ _ r _).trans ?_
      exact congrArg (· + _) (representation_get_add s _ r _)
  · intro exact
    refine exact_attach L s _ _ n fresh exact fun r => ?_
    have present := exact_named L s exact _ m repStored oldNamed
    refine (grew_nothing _ _ _ ?_ r).trans (grew_named s.representation _ _ named r)
    exact (grew_named s.representation _ _ named _).mpr (Or.inl present)

theorem change_put (block : Block) (before : Note) (fresh : L.get (block.hash env) = none) (latest : L.Latest block.previous before) :
    ∃ blocks, blockPut env s (block.hash env) block 0 = .ok { s with blocks := blocks } ∧
      BlocksHold (L.put (block.hash env) { before.follow block before.balance 0 with repBlock := block.hash env })
        (fun x => if x = block.hash env then 0 else if x = block.previous ∧ block.kind ≠ .openBlock then block.hash env else L.succ x)
        blocks ∧
      ∀ fuel, ledgerBalance env fuel { s with blocks := blocks } block.previous = ledgerBalance env fuel s block.previous := by
  have proper : block.previous ≠ block.hash env := by
    intro loop
    rw [← loop, latest.1] at fresh
    cases fresh
  obtain ⟨blocks, put, linked⟩ := block_put_holds env L L.succ s (block.hash env) 0
    { before.follow block before.balance 0 with repBlock := block.hash env } agrees.blocks
    (fun m stored => by rw [fresh] at stored; cases stored) rfl (Or.inl rfl) proper (fun _ => by simp [Note.follow, latest.1])
  have reads := reads_put consistent agrees _ _ _ blocks fresh rfl linked
  refine ⟨blocks, put, linked, fun fuel => ?_⟩
  exact ledger_balance_alike consistent reads (agrees_reads consistent agrees) (below_refl L) (fun _ _ _ => rfl) fuel _ before latest.1

theorem process_change_settles (fuel : Nat) (block : Block) (previous : Hash) (representative : Account)
    (fields : block.hashables = .changeBlock previous representative) (ranked : Ranked rank top L) :
    Settles (processChange env fuel clock uninit s block previous) (ProcessFault env L top fuel block) (Processed env L s block) := by
  have prior : block.previous = previous := by simp [Block.previous, fields]
  have later : block.kind ≠ .openBlock := by simp [Block.kind, fields]
  unfold processChange
  rw [← prior]
  generalize owner : frontierGet s block.previous = account
  apply enter_settles consistent agrees block later uninit account owner
  intro before fresh latest
  obtain ⟨time, known⟩ := account_latest consistent agrees _ before latest
  rw [known, require_some, bind_ok, ensure_true _ (Note.info_head _ _ _), bind_ok]
  refine signature_settles block uninit _ _ before later latest.1 fun signed => ?_
  obtain ⟨blocks, put, linked, reads⟩ := change_put consistent agrees block before fresh latest
  refine settles_step put ?_
  rw [reads fuel]
  refine settles_value (settles_mono (ledger_balance_settles consistent ranked (agrees_reads consistent agrees) fuel
    latest.1) (fun _ starved => Or.inl ⟨starved.1, fun enough => starved.2 ⟨enough.1, enough.2.1⟩⟩) (fun _ => id)) ?_
  exact settles_mono (change_tail_settles consistent agrees clock uninit blocks _ fields
    fresh latest known signed linked fun nobody => Or.inr ⟨rfl, nobody⟩) (fun _ => id) (fun _ => Or.inl)

theorem change_asks_balance (block : Block) {previous : Hash} (representative : Account) {before : Note}
    (fields : block.hashables = .changeBlock previous representative) (fresh : L.get (block.hash env) = none)
    (latest : L.Latest previous before) (signed : env.validateMessage before.account (block.hash env) block.signature = false) :
    ∃ rest, (∀ fuel, ledgerProcess env fuel clock uninit s block = ledgerBalance env fuel s previous >>= rest) ∧
      Settles (rest before.balance) (fun stopped => stopped = .abort ∧ NamesNobody block) fun out => ∃ n,
      Accepted env L s block n out := by
  have prior : block.previous = previous := by simp [Block.previous, fields]
  subst prior
  have owned := stored_account_ne_zero consistent latest.1
  obtain ⟨time, known⟩ := account_latest consistent agrees _ before latest
  obtain ⟨blocks, put, linked, reads⟩ := change_put consistent agrees block before fresh latest
  have tail := change_tail_settles consistent agrees clock uninit blocks
    (fun stopped => stopped = .abort ∧ NamesNobody block) fields fresh latest known signed linked fun nobody => ⟨rfl, nobody⟩
  refine ⟨?rest, fun fuel => ?asks, ?settles⟩
  case asks =>
    simp only [ledgerProcess, fields, processChange]
    rw [if_neg (by simp [exists_absent agrees.blocks _ fresh]), if_neg (by simp [exists_stored agrees.blocks latest.1]),
      frontier_latest agrees _ before latest, if_neg owned, known, require_some, bind_ok, ensure_true _ (Note.info_head _ _ _), bind_ok,
      if_neg (by simp [signed]), put, bind_ok, reads fuel]
  case settles => exact tail

theorem contract_asks_load (block : Block) (previous : Hash) (destination : Account) (action : Bytes) (before : Note)
    (fields : block.hashables = .sendBlockV2 previous destination action) (fresh : L.get (block.hash env) = none)
    (latest : L.Latest previous before) (signed : env.validateMessage before.account (block.hash env) block.signature = false) :
    ∃ rest, ∀ fuel, ledgerProcess env fuel clock uninit s block =
      vmLoad env fuel (accountSetCode s before.account action) before.account >>= rest := by
  have owned := stored_account_ne_zero consistent latest.1
  obtain ⟨time, known⟩ := account_latest consistent agrees _ before latest
  refine ⟨?rest, fun fuel => ?asks⟩
  case asks =>
    simp only [ledgerProcess, fields, processSendV2]
    rw [if_neg (by simp [exists_absent agrees.blocks _ fresh]), if_neg (by simp [exists_stored agrees.blocks latest.1]),
      frontier_latest agrees _ before latest, if_neg owned, if_neg (by simp [signed]), known, require_some, bind_ok,
      ensure_true _ (Note.info_head _ _ _), bind_ok]

omit agrees in
theorem attach_stands {n : Note} (attach : Attach env L (n.block.hash env) n) (later : n.block.kind ≠ .openBlock) :
    ∃ before, L.Latest n.block.previous before ∧
      env.validateMessage before.account (n.block.hash env) n.block.signature = false := by
  obtain ⟨before, stored, follows⟩ := entry_before attach.entry later
  exact ⟨before, latest_before consistent attach stored follows.account, follows.account ▸ attach.signed⟩

theorem accepted_fueled (fuel : Nat) (n : Note) (attach : Attach env L (n.block.hash env) n) (out : Store × ProcessReturn)
    (returned : ledgerProcess env fuel clock uninit s n.block = .ok out) : Fueled env fuel s n.block := by
  cases fields : n.block.hashables with
  | changeBlock previous representative =>
      have prior : n.block.previous = previous := by simp [Block.previous, fields]
      subst prior
      obtain ⟨before, latest, signed⟩ := attach_stands consistent attach (by simp [Block.kind, fields])
      obtain ⟨rest, asks, _⟩ := change_asks_balance consistent agrees clock uninit n.block representative fields
        attach.fresh latest signed
      rw [asks] at returned
      obtain ⟨balance, computed, _⟩ := bind_returned returned
      exact ⟨fun _ => ⟨balance, computed⟩, by simp [Block.loads, fields]⟩
  | sendBlockV2 previous destination action =>
      have prior : n.block.previous = previous := by simp [Block.previous, fields]
      subst prior
      obtain ⟨before, latest, signed⟩ := attach_stands consistent attach (by simp [Block.kind, fields])
      obtain ⟨rest, asks⟩ := contract_asks_load consistent agrees clock uninit n.block _ destination action before fields
        attach.fresh latest signed
      rw [asks, vm_load_set] at returned
      obtain ⟨_, loaded, _⟩ := bind_returned returned
      refine ⟨fun changing => by simp [Block.kind, fields] at changing, ?_⟩
      by_contra stuck
      rw [if_neg (by simpa [Block.loads, fields] using stuck)] at loaded
      cases loaded
  | _ => exact ⟨fun changing => by simp [Block.kind, fields] at changing, by simp [Block.loads, fields]⟩

theorem ledger_process_settles (fuel : Nat) (block : Block) (ranked : Ranked rank top L) :
    Settles (ledgerProcess env fuel clock uninit s block) (ProcessFault env L top fuel block) (Processed env L s block) := by
  unfold ledgerProcess
  cases fields : block.hashables with
  | sendBlock previous destination balance => exact process_send_settles consistent agrees clock uninit block _ _ _ _ fields
  | receiveBlock previous source => exact process_receive_settles consistent agrees clock uninit block _ _ _ fields
  | openBlock source representative account =>
      exact process_open_settles consistent agrees clock uninit block _ _ _ _ fields fun nobody => Or.inr ⟨rfl, nobody⟩
  | changeBlock previous representative => exact process_change_settles consistent agrees clock uninit fuel block _ _ fields ranked
  | sendBlockV2 previous destination action =>
      exact process_send_v2_settles consistent agrees clock uninit fuel block _ _ _ _ fields fun stuck =>
        Or.inl ⟨rfl, fun enough => stuck enough.2.2⟩

omit [HashesApart env] consistent agrees in
theorem entry_names (h : Hash) (n : Note) (entry : Entry L h n) : ¬ NamesNobody n.block := by
  rintro ⟨kind, nobody⟩
  cases fields : n.block.hashables with
  | openBlock source representative account =>
      simp only [Entry, fields] at entry
      exact entry.1 (by simpa [Block.representative, fields] using nobody)
  | changeBlock previous representative =>
      simp only [Entry, fields] at entry
      exact entry.1 (by simpa [Block.representative, fields] using nobody)
  | _ => simp [Block.kind, fields] at kind

omit [HashesApart env] consistent agrees in
theorem process_known (fuel : Nat) (block : Block) (known : blockExists s (block.hash env) = true) :
    ledgerProcess env fuel clock uninit s block = .ok (s, { uninit with code := .old }) := by
  unfold ledgerProcess
  split
  · rw [processSend, if_pos known]
  · rw [processReceive, if_pos known]
  · rw [processOpen, if_pos known]
  · rw [processChange, if_pos known]
  · rw [processSendV2, if_pos known]

theorem process_accepts (fuel : Nat) (n : Note) (attach : Attach env L (n.block.hash env) n) (fueled : Fueled env fuel s n.block) :
    ∃ out, ledgerProcess env fuel clock uninit s n.block = .ok out ∧ Accepted env L s n.block n out := by
  have settled : Settles (ledgerProcess env fuel clock uninit s n.block) (fun stopped => stopped = .abort ∧ NamesNobody n.block)
      (Processed env L s n.block) := by
    cases fields : n.block.hashables with
    | sendBlock previous destination balance =>
        simp only [ledgerProcess, fields]
        exact process_send_settles consistent agrees clock uninit n.block _ _ _ _ fields
    | receiveBlock previous source =>
        simp only [ledgerProcess, fields]
        exact process_receive_settles consistent agrees clock uninit n.block _ _ _ fields
    | openBlock source representative account =>
        simp only [ledgerProcess, fields]
        exact process_open_settles consistent agrees clock uninit n.block _ _ _ _ fields fun nobody => ⟨rfl, nobody⟩
    | sendBlockV2 previous destination action =>
        simp only [ledgerProcess, fields]
        exact process_send_v2_settles consistent agrees clock uninit fuel n.block _ _ _ _ fields (absurd fueled.loads)
    | changeBlock previous representative =>
        have kind : n.block.kind = .changeBlock := by simp [Block.kind, fields]
        obtain ⟨before, latest, signed⟩ := attach_stands consistent attach (by simp [kind])
        obtain ⟨rest, asks, ends⟩ := change_asks_balance consistent agrees clock uninit n.block representative
          (by simp [Block.previous, fields]) attach.fresh latest signed
        obtain ⟨rank, top, ranked⟩ := exists_ranked consistent
        obtain ⟨balance, returned⟩ := fueled.balance kind
        obtain rfl := settles_returned
          (ledger_balance_settles consistent ranked (agrees_reads consistent agrees) fuel latest.1) returned
        rw [asks fuel, returned, bind_ok]
        exact settles_mono ends (fun _ => id) (fun _ => Or.inl)
  cases out : ledgerProcess env fuel clock uninit s n.block with
  | error stopped =>
      rw [out, settles_error] at settled
      exact absurd settled.2 (entry_names _ n attach.entry)
  | ok result =>
      rw [out, settles_ok] at settled
      obtain ⟨m, accepted⟩ | ⟨_, refused⟩ := settled
      · have same := entry_unique L _ m n accepted.attach.entry attach.entry accepted.carries
        subst same
        exact ⟨result, rfl, accepted⟩
      · exact absurd attach (refused_not_attach env L n _ consistent refused)

theorem process_attaches (fuel : Nat) (n : Note) (ranked : Ranked rank top L) (legacy : Legacy L) (enough : 4 * top ≤ fuel)
    (attach : Attach env L (n.block.hash env) n) (loads : n.block.loads env fuel = true) :
    ∃ out, ledgerProcess env fuel clock uninit s n.block = .ok out ∧ Accepted env L s n.block n out := by
  refine process_accepts consistent agrees clock uninit fuel n attach ⟨fun kind => ?_, loads⟩
  obtain ⟨before, stored, _⟩ := entry_before attach.entry (by simp [kind])
  obtain ⟨balance, returned, _⟩ := settles_returns
    (ledger_balance_settles consistent ranked (agrees_reads consistent agrees) fuel stored) ⟨legacy, enough⟩
  exact ⟨balance, returned⟩

end Kinds

end Rai
