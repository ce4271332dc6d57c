import Raiblocks.BlockTables
import Raiblocks.View
import Raiblocks.Visitors

set_option autoImplicit false

namespace Rai

open Kit

-- What the balance and amount visitors rely on: the blocks of the lattice are
-- there, possibly among others, and the checkpoints tell the truth. The states
-- in the middle of an update are covered too.
structure Reads (env : Env) (L : Lattice) (s : Store) : Prop where
  blocks : ∀ x n, L.get x = some n → ∃ found, blockGet s x = .ok (some found) ∧ n.block.ReadsAs found
  issuer : blockGet s (genesisAccount env.network) = .ok none
  checkpoints : ∀ x info, s.blocksInfo.get x = some info → ∃ n, L.get x = some n ∧ info = ⟨n.account, n.balance⟩

theorem reads_holds (env : Env) (L : Lattice) (next : Hash → Hash) (s : Store) [HashesApart env] (consistent : Consistent env L)
    (holds : BlocksHold L next s.blocks) (checkpoints : ∀ x, s.blocksInfo.get x = L.checkpoint x) : Reads env L s := by
  refine ⟨get_reads_as holds, get_absent holds _ (account_not_stored consistent _ (Or.inl rfl)), ?_⟩
  intro x info found
  rw [checkpoints, checkpoint_some_iff] at found
  obtain ⟨n, stored, _, same⟩ := found
  exact ⟨n, stored, same⟩

def Legacy (L : Lattice) : Prop := ∀ h n, L.get h = some n → n.block.kind ≠ .sendBlockV2

structure Ranked (rank : Hash → Nat) (top : Nat) (L : Lattice) : Prop where
  drops : ∀ x d, Needs L x d → rank d < rank x
  within : ∀ x n, L.get x = some n → rank x < top

theorem exists_ranked {env : Env} {L : Lattice} (consistent : Consistent env L) : ∃ rank top, Ranked rank top L := by
  obtain ⟨rank, drops⟩ := consistent.ranked
  refine ⟨rank, L.keys.sup rank + 1, drops, ?_⟩
  intro x n stored
  exact Nat.lt_succ_of_le (Finset.le_sup ((Table.mem_keys L x).mpr (by simp [stored])))

theorem ranked_below (rank : Hash → Nat) (top : Nat) (L M : Lattice) (ranked : Ranked rank top M) (below : Below L M) :
    Ranked rank top L :=
  ⟨fun x d needs => ranked.drops x d (needs_below L M below x d needs), fun x n stored => ranked.within x n (below x n stored)⟩

section Ranks

variable {env : Env} {L : Lattice} {rank : Hash → Nat} {top : Nat} (consistent : Consistent env L)
  (ranked : Ranked rank top L)

include ranked in
theorem rank_previous {h d : Hash} {n before : Note} (stored : L.get h = some n) (prior : n.block.previous = d)
    (present : L.get d = some before) : rank d < rank h :=
  ranked.drops h d ⟨n, stored, Or.inl prior.symm, by simp [present]⟩

include ranked in
theorem rank_source (h d : Hash) (n sent : Note) (stored : L.get h = some n) (spent : n.block.source = d)
    (present : L.get d = some sent) : rank d < rank h :=
  ranked.drops h d ⟨n, stored, Or.inr spent.symm, by simp [present]⟩

include consistent ranked

theorem height_le_rank [HashesApart env] (h : Hash) (n : Note) (stored : L.get h = some n) : n.height ≤ rank h + 1 := by
  apply chain_induction consistent (fun h n => n.height ≤ rank h + 1) _ _ h n stored
  · intro h n stored first
    rw [(stored_open consistent stored first).2.2.1]
    exact Nat.le_add_left 1 _
  · intro h n before stored present follows below
    have drops := rank_previous ranked stored rfl present
    have above := follows.height
    omega

theorem height_le_top [HashesApart env] (h : Hash) (n : Note) (stored : L.get h = some n) : n.height ≤ top := by
  have low := height_le_rank consistent ranked h n stored
  have high := ranked.within h n stored
  omega

end Ranks

section Representative

variable {env : Env} {L : Lattice} {next : Hash → Hash} {s : Store} [HashesApart env] (consistent : Consistent env L)
  (holds : BlocksHold L next s.blocks)
include consistent holds

theorem representative_compute_settles (fuel : Nat) (x : Hash) (n : Note) (stored : L.get x = some n) :
    Settles (representativeCompute env s fuel x) (Starved (n.height ≤ fuel)) (· = n.repBlock) := by
  induction fuel generalizing x n with
  | zero =>
      have positive := height_pos consistent stored
      exact ⟨rfl, by omega⟩
  | succ fuel ih =>
      obtain ⟨found, read, same⟩ := get_reads_as holds x n stored
      rw [representativeCompute, read, bind_ok, require_some, bind_ok]
      have nonzero := stored_ne_zero consistent x n stored
      -- The kinds that name no representative hand over to the block below.
      have descend : n.block.kind ≠ .openBlock → n.block.kind ≠ .changeBlock →
          Settles (representativeCompute env s fuel n.block.previous) (Starved (n.height ≤ fuel + 1)) (· = n.repBlock) := by
        intro later keeps
        have inner : n.block.previous ≠ 0 := fun first => later ((previous_zero_iff consistent stored).mp first)
        obtain ⟨before, present, follows⟩ := stored_before consistent stored inner
        rw [follows.inherits keeps, follows.height]
        exact settles_enough (ih _ before present) Nat.le_of_succ_le_succ
      have exact : n.block.kind ≠ .sendBlockV2 → found = n.block := reads_as_exact n.block found same
      have own : (n.block.kind = .openBlock ∨ n.block.kind = .changeBlock) → n.repBlock = x := by
        rintro (opening | changing)
        · exact (stored_open consistent stored (open_previous n.block opening)).2.1
        · have inner : n.block.previous ≠ 0 := fun first => by
            have opening := (previous_zero_iff consistent stored).mp first
            rw [changing] at opening
            cases opening
          obtain ⟨before, _, follows⟩ := stored_before consistent stored inner
          exact (follows.changes changing).1
      have hash := consistent.hashed x n stored
      obtain ⟨⟨hashables, signature, work⟩, account, openBlock, repBlock, height, balance, amount⟩ := n
      cases hashables with
      | sendBlockV2 previous destination action =>
          have down := descend (by simp [Block.kind]) (by simp [Block.kind])
          obtain rfl | ⟨_, _, _, kept, fields, fields'⟩ := same
          · exact down
          · cases fields
            rw [fields']
            exact down
      | sendBlock previous destination balance =>
          rw [exact (by simp [Block.kind])]
          exact descend (by simp [Block.kind]) (by simp [Block.kind])
      | receiveBlock previous source =>
          rw [exact (by simp [Block.kind])]
          exact descend (by simp [Block.kind]) (by simp [Block.kind])
      | openBlock source representative owner =>
          rw [exact (by simp [Block.kind])]
          dsimp only at hash own ⊢
          rw [hash, if_neg nonzero, own (Or.inl rfl), settles_ok]
      | changeBlock previous representative =>
          rw [exact (by simp [Block.kind])]
          dsimp only at hash own ⊢
          rw [hash, if_neg nonzero, own (Or.inr rfl), settles_ok]

theorem ledger_representative_settles (fuel : Nat) (x : Hash) (n : Note) (stored : L.get x = some n) :
    Settles (ledgerRepresentative env fuel s x) (Starved (n.height ≤ fuel)) (· = n.repBlock) := by
  obtain ⟨m, present, _⟩ := rep_block_stored consistent stored
  apply settles_value (representative_compute_settles consistent holds fuel x n stored)
  rw [ensure_true _ (Or.inr (exists_stored holds present)), bind_ok, settles_ok]

end Representative

section Amounts

variable {env : Env} {L : Lattice} {s : Store} {rank : Hash → Nat} {top : Nat}
  (consistent : Consistent env L) (ranked : Ranked rank top L) (reads : Reads env L s)

structure AmountSpec (env : Env) (L : Lattice) (s : Store) (rank : Hash → Nat) (fuel : Nat) : Prop where
  balance : ∀ x n result, L.get x = some n →
    Settles (balanceLoop env s fuel x result) (Starved (Legacy L ∧ 4 * rank x + 2 ≤ fuel)) (· = result + n.balance)
  compute : ∀ x n, L.get x = some n →
    Settles (amountCompute env s fuel x) (Starved (Legacy L ∧ 4 * rank x + 2 ≤ fuel)) (· = n.amount)
  fromSend : ∀ x n, L.get x = some n →
    Settles (amountFromSend env s fuel x 0) (Starved (Legacy L ∧ 4 * rank x + 2 ≤ fuel)) (· = n.amount)
  visit : ∀ x n found, L.get x = some n → n.block.ReadsAs found →
    Settles (amountVisit env s fuel found 0) (Starved (Legacy L ∧ 4 * rank x + 1 ≤ fuel)) (· = n.amount)

theorem balance_loop_zero (env : Env) (s : Store) (fuel : Nat) (result : Amount) :
    Settles (balanceLoop env s fuel 0 result) (Starved (1 ≤ fuel)) (· = result) := by
  cases fuel with
  | zero => exact ⟨rfl, by omega⟩
  | succ fuel => rw [balanceLoop, if_pos rfl, settles_ok]

include reads in
theorem amount_compute_genesis (fuel : Nat) :
    Settles (amountCompute env s fuel (genesisAccount env.network)) (Starved (1 ≤ fuel)) (· = genesisAmount) := by
  cases fuel with
  | zero => exact ⟨rfl, by omega⟩
  | succ fuel =>
      rw [amountCompute, reads.issuer, bind_ok]
      simp only [if_true, settles_ok]
      rfl

include consistent ranked reads

omit reads in
theorem amount_visit_step [HashesApart env] (fuel : Nat) (spec : AmountSpec env L s rank fuel) (x : Hash) (n : Note) (found : Block)
    (stored : L.get x = some n) (same : n.block.ReadsAs found) :
    Settles (amountVisit env s (fuel + 1) found 0) (Starved (Legacy L ∧ 4 * rank x + 1 ≤ fuel + 1)) (· = n.amount) := by
  rw [amountVisit]
  cases fields : n.block.hashables with
  | sendBlock previous destination balance =>
      rw [reads_as_exact _ _ same (by simp [Block.kind, fields]), fields]
      obtain ⟨before, present, _, _, amount⟩ := stored_send consistent stored fields
      have drops := rank_previous ranked stored (by simp [Block.previous, fields]) present
      apply settles_value (settles_enough (spec.balance previous before 0 present) fun enough => ⟨enough.1, by omega⟩)
      rw [settles_ok, amount, zero_add]
  | receiveBlock previous source =>
      rw [reads_as_exact _ _ same (by simp [Block.kind, fields]), fields]
      obtain ⟨before, sent, _, sentTo, _, amount⟩ := stored_receive consistent stored fields
      have drops := rank_source ranked x _ n sent stored (by simp [Block.source, fields]) sentTo.1
      rw [amount]
      exact settles_enough (spec.fromSend source sent sentTo.1) fun enough => ⟨enough.1, by omega⟩
  | openBlock source representative account =>
      rw [reads_as_exact _ _ same (by simp [Block.kind, fields]), fields]
      obtain ⟨claimed, _, _, amount⟩ | ⟨other, sent, sentTo, _, _, amount⟩ :=
        stored_open_source consistent stored fields
      · simp only [claimed, ne_eq, not_true_eq_false, if_false, settles_ok, amount]
      · have drops := rank_source ranked x _ n sent stored (by simp [Block.source, fields]) sentTo.1
        simp only [ne_eq, other, not_false_eq_true, if_true, amount]
        exact settles_enough (spec.fromSend source sent sentTo.1) fun enough => ⟨enough.1, by omega⟩
  | changeBlock previous representative =>
      rw [reads_as_exact _ _ same (by simp [Block.kind, fields]), fields]
      obtain ⟨_, _, _, amount⟩ := stored_change consistent stored fields
      rw [settles_ok, amount]
  | sendBlockV2 previous destination action =>
      obtain ⟨_, _, _, amount⟩ := stored_v2 consistent stored fields
      obtain rfl | ⟨_, _, _, kept, fields', cut⟩ := same
      · rw [fields, settles_ok, amount]
      · rw [cut, settles_ok, amount]

omit consistent ranked in
theorem amount_from_send_step (fuel : Nat) (spec : AmountSpec env L s rank fuel) (x : Hash) (n : Note) (stored : L.get x = some n) :
    Settles (amountFromSend env s (fuel + 1) x 0) (Starved (Legacy L ∧ 4 * rank x + 2 ≤ fuel + 1)) (· = n.amount) := by
  obtain ⟨found, read, same⟩ := reads.blocks x n stored
  rw [amountFromSend, read, bind_ok, require_some, bind_ok]
  exact settles_enough (spec.visit x n found stored same) fun enough => ⟨enough.1, by omega⟩

omit consistent ranked in
theorem amount_compute_step (fuel : Nat) (spec : AmountSpec env L s rank fuel) (x : Hash) (n : Note) (stored : L.get x = some n) :
    Settles (amountCompute env s (fuel + 1) x) (Starved (Legacy L ∧ 4 * rank x + 2 ≤ fuel + 1)) (· = n.amount) := by
  obtain ⟨found, read, same⟩ := reads.blocks x n stored
  rw [amountCompute, read, bind_ok]
  exact settles_enough (spec.visit x n found stored same) fun enough => ⟨enough.1, by omega⟩

omit consistent ranked in
theorem checkpoint_balance (x : Hash) (n : Note) (info : BlockInfo) (stored : L.get x = some n)
    (checkpointed : s.blocksInfo.get x = some info) : info.balance = n.balance := by
  obtain ⟨m, present, same⟩ := reads.checkpoints x info checkpointed
  cases stored.symm.trans present
  rw [same]

omit consistent ranked in
theorem balance_continues {fuel : Nat} (spec : AmountSpec env L s rank fuel) {x previous : Hash} {n before : Note}
    (result next : Amount) (stored : L.get x = some n) (present : L.get previous = some before) (lower : rank previous < rank x)
    (total : next + before.balance = result + n.balance) :
    Settles (match s.blocksInfo.get x with
        | some info => balanceLoop env s fuel 0 (result + info.balance)
        | none => balanceLoop env s fuel previous next)
      (Starved (Legacy L ∧ 4 * rank x + 2 ≤ fuel + 1)) (· = result + n.balance) := by
  cases checkpointed : s.blocksInfo.get x with
  | some info =>
      rw [← checkpoint_balance reads x n info stored checkpointed]
      exact settles_enough (balance_loop_zero env s fuel _) fun enough => by omega
  | none =>
      rw [← total]
      exact settles_enough (spec.balance previous before _ present) fun enough => ⟨enough.1, by omega⟩

theorem balance_loop_step [HashesApart env] (fuel : Nat) (spec : AmountSpec env L s rank fuel) (x : Hash) (n : Note) (result : Amount)
    (stored : L.get x = some n) :
    Settles (balanceLoop env s (fuel + 1) x result) (Starved (Legacy L ∧ 4 * rank x + 2 ≤ fuel + 1)) (· = result + n.balance) := by
  have ends : ∀ value, Settles (balanceLoop env s fuel 0 value) (Starved (Legacy L ∧ 4 * rank x + 2 ≤ fuel + 1)) (· = value) :=
    fun value => settles_enough (balance_loop_zero env s fuel value) fun enough => by omega
  obtain ⟨found, read, same⟩ := reads.blocks x n stored
  rw [balanceLoop, if_neg (stored_ne_zero consistent x n stored), read, bind_ok, require_some, bind_ok]
  have hash := consistent.hashed x n stored
  cases fields : n.block.hashables with
  | sendBlock previous destination balance =>
      rw [reads_as_exact _ _ same (by simp [Block.kind, fields]), fields]
      obtain ⟨_, _, _, value, _⟩ := stored_send consistent stored fields
      rw [value]
      exact ends _
  | sendBlockV2 previous destination action =>
      -- The loop finds the same block again: it may only end by running out.
      have again : Settles (balanceLoop env s fuel x result) (Starved (Legacy L ∧ 4 * rank x + 2 ≤ fuel + 1))
        (· = result + n.balance) :=
        settles_enough (spec.balance x n result stored) fun enough =>
          absurd (by simp [Block.kind, fields]) (enough.1 x n stored)
      obtain rfl | ⟨_, _, _, kept, fields', cut⟩ := same
      · rw [fields]
        exact again
      · rw [cut]
        exact again
  | receiveBlock previous source =>
      rw [reads_as_exact _ _ same (by simp [Block.kind, fields]), fields]
      obtain ⟨before, sent, present, sentTo, value, _⟩ := stored_receive consistent stored fields
      have lower := rank_previous ranked stored (by simp [Block.previous, fields]) present
      have drops := rank_source ranked x _ n sent stored (by simp [Block.source, fields]) sentTo.1
      apply settles_value (settles_enough (spec.compute source sent sentTo.1) fun enough => ⟨enough.1, by omega⟩)
      rw [hash]
      have total : result + sent.amount + before.balance = result + n.balance := by rw [value]; ring
      exact balance_continues reads spec result _ stored present lower total
  | openBlock source representative account =>
      rw [reads_as_exact _ _ same (by simp [Block.kind, fields]), fields]
      obtain ⟨claimed, _, value, _⟩ | ⟨_, sent, sentTo, _, value, _⟩ :=
        stored_open_source consistent stored fields
      · have issued := amount_compute_genesis reads fuel
        rw [← claimed] at issued
        apply settles_value (settles_enough issued fun enough => by omega)
        rw [value]
        exact ends _
      · have drops := rank_source ranked x _ n sent stored (by simp [Block.source, fields]) sentTo.1
        apply settles_value (settles_enough (spec.compute source sent sentTo.1) fun enough => ⟨enough.1, by omega⟩)
        rw [value]
        exact ends _
  | changeBlock previous representative =>
      rw [reads_as_exact _ _ same (by simp [Block.kind, fields]), fields]
      obtain ⟨before, present, value, _⟩ := stored_change consistent stored fields
      have lower := rank_previous ranked stored (by simp [Block.previous, fields]) present
      dsimp only
      rw [hash]
      exact balance_continues reads spec result result stored present lower (by rw [value])

theorem amount_spec [HashesApart env] (fuel : Nat) : AmountSpec env L s rank fuel := by
  induction fuel with
  | zero =>
      exact ⟨fun x n result _ => ⟨rfl, by omega⟩, fun x n _ => ⟨rfl, by omega⟩, fun x n _ => ⟨rfl, by omega⟩,
        fun x n found _ _ => ⟨rfl, by omega⟩⟩
  | succ fuel ih =>
      exact ⟨balance_loop_step consistent ranked reads fuel ih, amount_compute_step reads fuel ih,
        amount_from_send_step reads fuel ih, amount_visit_step consistent ranked fuel ih⟩

theorem ledger_balance_settles [HashesApart env] (fuel : Nat) {x : Hash} {n : Note} (stored : L.get x = some n) :
    Settles (ledgerBalance env fuel s x) (Starved (Legacy L ∧ 4 * top ≤ fuel)) (· = n.balance) := by
  have within := ranked.within x n stored
  have settled := (amount_spec consistent ranked reads fuel).balance x n 0 stored
  rw [zero_add] at settled
  exact settles_enough settled fun enough => ⟨enough.1, by omega⟩

theorem ledger_amount_settles [HashesApart env] (fuel : Nat) (x : Hash) (n : Note) (stored : L.get x = some n) :
    Settles (ledgerAmount env fuel s x) (Starved (Legacy L ∧ 4 * top ≤ fuel)) (· = n.amount) := by
  have within := ranked.within x n stored
  exact settles_enough ((amount_spec consistent ranked reads fuel).compute x n stored) fun enough => ⟨enough.1, by omega⟩

end Amounts

-- More fuel changes no answer of the visitors.
section Growth

variable (env : Env) (s : Store)

structure VisitsGrow (fuel : Nat) : Prop where
  balance : ∀ x result, Extends (balanceLoop env s fuel x result) (balanceLoop env s (fuel + 1) x result)
  compute : ∀ x, Extends (amountCompute env s fuel x) (amountCompute env s (fuel + 1) x)
  fromSend : ∀ x result, Extends (amountFromSend env s fuel x result) (amountFromSend env s (fuel + 1) x result)
  visit : ∀ block result, Extends (amountVisit env s fuel block result) (amountVisit env s (fuel + 1) block result)

theorem visit_grows (fuel : Nat) (grows : VisitsGrow env s fuel) (block : Block) (result : Amount) :
    Extends (amountVisit env s (fuel + 1) block result) (amountVisit env s (fuel + 1 + 1) block result) := by
  rw [amountVisit, amountVisit]
  cases block.hashables with
  | sendBlock previous destination balance => exact extends_bind (grows.balance previous 0) fun _ => extends_refl _
  | sendBlockV2 previous destination action => exact extends_refl _
  | receiveBlock previous source => exact grows.fromSend source result
  | openBlock source representative account =>
      dsimp only
      split
      · exact grows.fromSend source result
      · exact extends_refl _
  | changeBlock previous representative => exact extends_refl _

theorem balance_grows (fuel : Nat) (grows : VisitsGrow env s fuel) (x : Hash) (result : Amount) :
    Extends (balanceLoop env s (fuel + 1) x result) (balanceLoop env s (fuel + 1 + 1) x result) := by
  rw [balanceLoop, balanceLoop]
  split
  · exact extends_refl _
  refine extends_bind (extends_refl _) fun found => extends_bind (extends_refl _) fun block => ?_
  cases block.hashables with
  | sendBlock previous destination balance => exact grows.balance 0 _
  | sendBlockV2 previous destination action => exact grows.balance x result
  | receiveBlock previous source =>
      refine extends_bind (grows.compute source) fun amount => ?_
      cases s.blocksInfo.get (block.hash env) with
      | some info => exact grows.balance 0 _
      | none => exact grows.balance previous _
  | openBlock source representative account => exact extends_bind (grows.compute source) fun amount => grows.balance 0 _
  | changeBlock previous representative =>
      dsimp only
      cases s.blocksInfo.get (block.hash env) with
      | some info => exact grows.balance 0 _
      | none => exact grows.balance previous _

theorem visits_grow (fuel : Nat) : VisitsGrow env s fuel := by
  induction fuel with
  | zero =>
      refine ⟨?_, ?_, ?_, ?_⟩ <;> intros
      · rw [balanceLoop]
        exact extends_fault _ _
      · rw [amountCompute]
        exact extends_fault _ _
      · rw [amountFromSend]
        exact extends_fault _ _
      · rw [amountVisit]
        exact extends_fault _ _
  | succ fuel ih =>
      refine ⟨balance_grows env s fuel ih, ?_, ?_, visit_grows env s fuel ih⟩
      · intro x
        rw [amountCompute, amountCompute]
        refine extends_bind (extends_refl _) fun found => ?_
        cases found with
        | some block => exact ih.visit block 0
        | none => exact extends_refl _
      · intro x result
        rw [amountFromSend, amountFromSend]
        exact extends_bind (extends_refl _) fun found => extends_bind (extends_refl _) fun block => ih.visit block result

end Growth

-- Two stores with the same blocks below and the same checkpoints there give the visitors the same answers, whatever else they hold.
section Alike

variable {env : Env} {L M : Lattice} {s t : Store} (consistent : Consistent env L) (left : Reads env L s)
  (right : Reads env M t) (below : Below L M) (checkpoints : ∀ x n, L.get x = some n → s.blocksInfo.get x = t.blocksInfo.get x)

structure VisitsAlike (env : Env) (L : Lattice) (s t : Store) (fuel : Nat) : Prop where
  balance : ∀ x n result, L.get x = some n → balanceLoop env s fuel x result = balanceLoop env t fuel x result
  compute : ∀ x n, L.get x = some n → amountCompute env s fuel x = amountCompute env t fuel x
  fromSend : ∀ x n result, L.get x = some n → amountFromSend env s fuel x result = amountFromSend env t fuel x result
  visit : ∀ x n found found' result, L.get x = some n → n.block.ReadsAs found → n.block.ReadsAs found' →
    amountVisit env s fuel found result = amountVisit env t fuel found' result

theorem balance_zero_alike (fuel : Nat) (result : Amount) : balanceLoop env s fuel 0 result = balanceLoop env t fuel 0 result := by
  cases fuel with
  | zero => rw [balanceLoop, balanceLoop]
  | succ fuel => rw [balanceLoop, balanceLoop, if_pos rfl, if_pos rfl]

include left right in
theorem genesis_alike (fuel : Nat) :
    amountCompute env s fuel (genesisAccount env.network) = amountCompute env t fuel (genesisAccount env.network) := by
  cases fuel with
  | zero => rw [amountCompute, amountCompute]
  | succ fuel => rw [amountCompute, amountCompute, left.issuer, right.issuer, bind_ok, bind_ok]

theorem contract_fields (block found : Block) (same : block.ReadsAs found) (contract : block.kind = .sendBlockV2) :
    ∃ previous destination action, found.hashables = .sendBlockV2 previous destination action := by
  obtain rfl | ⟨previous, destination, _, kept, _, cut⟩ := same
  · cases fields : found.hashables with
    | sendBlockV2 previous destination action => exact ⟨previous, destination, action, rfl⟩
    | _ => simp [Block.kind, fields] at contract
  · exact ⟨previous, destination, kept, cut⟩

include consistent in
theorem visit_alike [HashesApart env] (fuel : Nat) (alike : VisitsAlike env L s t fuel) (x : Hash) (n : Note)
    (found found' : Block) (result : Amount) (stored : L.get x = some n) (read : n.block.ReadsAs found)
    (read' : n.block.ReadsAs found') :
    amountVisit env s (fuel + 1) found result = amountVisit env t (fuel + 1) found' result := by
  rw [amountVisit, amountVisit]
  by_cases contract : n.block.kind = .sendBlockV2
  · obtain ⟨_, _, _, fields⟩ := contract_fields n.block found read contract
    obtain ⟨_, _, _, fields'⟩ := contract_fields n.block found' read' contract
    rw [fields, fields']
  · rw [reads_as_exact _ _ read contract, reads_as_exact _ _ read' contract]
    cases fields : n.block.hashables with
    | sendBlock previous destination balance =>
        obtain ⟨before, present, _⟩ := stored_send consistent stored fields
        simp only [alike.balance previous before 0 present]
    | receiveBlock previous source =>
        obtain ⟨_, sent, _, sentTo, _⟩ := stored_receive consistent stored fields
        exact alike.fromSend source sent result sentTo.1
    | openBlock source representative account =>
        obtain ⟨claimed, _⟩ | ⟨_, sent, sentTo, _⟩ := stored_open_source consistent stored fields
        · simp only [claimed, ne_eq, not_true_eq_false, if_false]
        · simp only [alike.fromSend source sent result sentTo.1]
    | changeBlock previous representative => rfl
    | sendBlockV2 previous destination action => rfl

include consistent left right below checkpoints

theorem balance_alike [HashesApart env] (fuel : Nat) (alike : VisitsAlike env L s t fuel) (x : Hash) (n : Note) (result : Amount)
    (stored : L.get x = some n) :
    balanceLoop env s (fuel + 1) x result = balanceLoop env t (fuel + 1) x result := by
  obtain ⟨found, read, same⟩ := left.blocks x n stored
  obtain ⟨found', read', same'⟩ := right.blocks x n (below x n stored)
  have nonzero := stored_ne_zero consistent x n stored
  have hash := consistent.hashed x n stored
  rw [balanceLoop, balanceLoop, if_neg nonzero, if_neg nonzero, read, read', bind_ok, bind_ok, require_some,
    require_some, bind_ok, bind_ok]
  by_cases contract : n.block.kind = .sendBlockV2
  · obtain ⟨_, _, _, fields⟩ := contract_fields n.block found same contract
    obtain ⟨_, _, _, fields'⟩ := contract_fields n.block found' same' contract
    rw [fields, fields']
    exact alike.balance x n result stored
  · rw [reads_as_exact _ _ same contract, reads_as_exact _ _ same' contract]
    cases fields : n.block.hashables with
    | sendBlock previous destination balance => exact balance_zero_alike fuel _
    | receiveBlock previous source =>
        obtain ⟨before, sent, present, sentTo, _⟩ := stored_receive consistent stored fields
        dsimp only
        rw [hash, checkpoints x n stored, alike.compute source sent sentTo.1]
        refine bind_congr fun amount => ?_
        cases t.blocksInfo.get x with
        | some info => exact balance_zero_alike fuel _
        | none => exact alike.balance previous before _ present
    | openBlock source representative account =>
        have paid : amountCompute env s fuel source = amountCompute env t fuel source := by
          obtain ⟨claimed, _⟩ | ⟨_, sent, sentTo, _⟩ := stored_open_source consistent stored fields
          · rw [claimed]
            exact genesis_alike left right fuel
          · exact alike.compute source sent sentTo.1
        dsimp only
        rw [paid]
        exact bind_congr fun amount => balance_zero_alike fuel _
    | changeBlock previous representative =>
        obtain ⟨before, present, _⟩ := stored_change consistent stored fields
        dsimp only
        rw [hash, checkpoints x n stored]
        cases t.blocksInfo.get x with
        | some info => exact balance_zero_alike fuel _
        | none => exact alike.balance previous before _ present
    | sendBlockV2 previous destination action => exact absurd (by simp [Block.kind, fields]) contract

theorem visits_alike [HashesApart env] (fuel : Nat) : VisitsAlike env L s t fuel := by
  induction fuel with
  | zero =>
      refine ⟨?_, ?_, ?_, ?_⟩ <;> intros
      · rw [balanceLoop, balanceLoop]
      · rw [amountCompute, amountCompute]
      · rw [amountFromSend, amountFromSend]
      · rw [amountVisit, amountVisit]
  | succ fuel ih =>
      refine ⟨balance_alike consistent left right below checkpoints fuel ih, ?_, ?_, visit_alike consistent fuel ih⟩
      · intro x n stored
        obtain ⟨found, read, same⟩ := left.blocks x n stored
        obtain ⟨found', read', same'⟩ := right.blocks x n (below x n stored)
        rw [amountCompute, amountCompute, read, read']
        exact ih.visit x n found found' 0 stored same same'
      · intro x n result stored
        obtain ⟨found, read, same⟩ := left.blocks x n stored
        obtain ⟨found', read', same'⟩ := right.blocks x n (below x n stored)
        rw [amountFromSend, amountFromSend, read, read']
        exact ih.visit x n found found' result stored same same'

theorem ledger_balance_alike [HashesApart env] (fuel : Nat) (x : Hash) (n : Note) (stored : L.get x = some n) :
    ledgerBalance env fuel s x = ledgerBalance env fuel t x :=
  (visits_alike consistent left right below checkpoints fuel).balance x n 0 stored

theorem ledger_amount_alike [HashesApart env] (fuel : Nat) (x : Hash) (n : Note) (stored : L.get x = some n) :
    ledgerAmount env fuel s x = ledgerAmount env fuel t x :=
  (visits_alike consistent left right below checkpoints fuel).compute x n stored

end Alike

-- What the walk to the frontier reads. While a latest block is being removed, its
-- row is gone and the pointer to it is not, so the walk is stated over the lattice before.
structure Walks (L : Lattice) (s : Store) : Prop where
  successors : ∀ x n, L.get x = some n → blockSuccessor s x = .ok (L.succ x)
  checkpoints : ∀ x info, s.blocksInfo.get x = some info → ∃ n, L.get x = some n ∧ info = ⟨n.account, n.balance⟩
  frontiers : ∀ x n, L.Latest x n → frontierGet s x = n.account

section Accounts

variable {env : Env} {L : Lattice} {s : Store} {rank : Hash → Nat} {top : Nat} [apart : HashesApart env]
  (consistent : Consistent env L) (ranked : Ranked rank top L) (walks : Walks L s)
include consistent ranked walks

-- `successor` is one at the start, then the block itself, and zero once the end is reached.
theorem account_loop_settles (fuel : Nat) (x successor : Hash) (n : Note) (stored : L.get x = some n)
    (pointed : successor = 1 ∨ successor = x ∨ successor = 0 ∧ L.succ x = 0) :
    Settles (accountLoop s fuel x successor)
      (Starved (if successor = 0 then 1 ≤ fuel else top + 2 ≤ fuel + n.height)) (· = n.account) := by
  induction fuel generalizing x successor n with
  | zero =>
      have bounded := height_le_top consistent ranked x n stored
      refine ⟨rfl, ?_⟩
      split <;> omega
  | succ fuel ih =>
      rw [accountLoop]
      by_cases ended : successor = 0
      · have last : L.succ x = 0 := by
          obtain one | here | ⟨_, last⟩ := pointed
          · rw [ended] at one
            exact absurd one (by decide)
          · exact absurd (here.symm.trans ended) (stored_ne_zero consistent x n stored)
          · exact last
        rw [if_pos ended, settles_ok]
        exact walks.frontiers x n ⟨stored, last⟩
      · rw [if_neg ended]
        cases checkpointed : s.blocksInfo.get successor with
        | some info =>
            obtain ⟨m, present, same⟩ := walks.checkpoints successor info checkpointed
            obtain one | here | ⟨zero, _⟩ := pointed
            · exact absurd ((consistent.hashed _ m present).trans one) (apart.one m.block)
            · rw [here, stored] at present
              cases present
              rw [settles_ok, same]
            · exact absurd zero ended
        | none =>
            dsimp only
            rw [walks.successors x n stored, bind_ok]
            by_cases last : L.succ x = 0
            · rw [if_pos last, last]
              refine settles_enough (ih x 0 n stored (Or.inr (Or.inr ⟨rfl, last⟩))) ?_
              have bounded := height_le_top consistent ranked x n stored
              simp only [if_neg ended, if_true]
              omega
            · obtain ⟨child, present, above⟩ := succ_child L x last
              obtain ⟨before, found, follows⟩ := stored_before consistent present (above ▸ stored_ne_zero consistent x n stored)
              rw [above, stored] at found
              cases found
              rw [if_neg last, ← follows.account]
              refine settles_enough (ih _ _ child present (Or.inr (Or.inl rfl))) ?_
              have higher := follows.height
              simp only [if_neg ended, if_neg last]
              omega

theorem ledger_account_settles (fuel : Nat) (x : Hash) (n : Note) (stored : L.get x = some n) (present : blockExists s x = true) :
    Settles (ledgerAccount fuel s x) (Starved (top + 1 ≤ fuel)) (· = n.account) := by
  rw [ledgerAccount, ensure_true _ present, bind_ok]
  have walked := account_loop_settles consistent ranked walks fuel x 1 n stored (Or.inl rfl)
  have positive := height_pos consistent stored
  refine settles_value (settles_enough walked ?_) ?_
  · rw [if_neg (by decide)]
    omega
  · rw [ensure_true _ (stored_account_ne_zero consistent stored), bind_ok, settles_ok]

end Accounts

end Rai
