import Raiblocks.Processor
import Raiblocks.Replacement
import Raiblocks.Termination

set_option autoImplicit false

namespace Rai

open Kit

theorem reachable_unchecked (env : Env) (s : Store) [HashesApart env] (reached : Reachable env s) :
    s.unchecked = .empty ∧ s.uncheckedCache = [] := by
  induction reached with
  | genesis now s started =>
      have plain := genesis_started started
      exact ⟨plain.unchecked, plain.cache⟩
  | process fuel clock uninit s block out reached returned ih =>
      obtain ⟨L, consistent, agrees⟩ := reachable_agrees reached
      obtain ⟨n, accepted⟩ | ⟨same, _⟩ := process_returned clock out consistent agrees returned
      · rw [accepted.unchecked, accepted.cache]
        exact ih
      · rw [same]
        exact ih
  | rollback fuel clock s h s' reached stored later returned ih =>
      obtain ⟨M, consistent, agrees⟩ := reachable_agrees reached
      obtain ⟨L, cut⟩ := rollback_returned clock consistent agrees stored later returned
      rw [cut.becomes.unchecked, cut.becomes.cache]
      exact ih

section Place

variable {env : Env} {L : Lattice} {s : Store} [HashesApart env] (consistent : Consistent env L) (agrees : Agrees L s)
include consistent

theorem chain_opened (h : Hash) (n : Note) (stored : L.get h = some n) :
    ∃ m, L.get n.openBlock = some m ∧ m.account = n.account ∧ m.block.previous = 0 := by
  apply chain_induction consistent (fun _ n => ∃ m, L.get n.openBlock = some m ∧ m.account = n.account ∧ m.block.previous = 0) _ _
    h n stored
  · intro h n stored first
    obtain ⟨own, _⟩ := stored_open consistent stored first
    exact ⟨n, own ▸ stored, rfl, first⟩
  · intro h n before _ _ follows opened
    rw [follows.openBlock, follows.account]
    exact opened

include agrees

theorem successor_found (x : Hash) (n : Note) (found : Block) (stored : L.get x = some n) (read : blockGet s x = .ok (some found)) :
    Yields (fun fuel => ledgerSuccessor fuel s n.block.root) found := by
  have nonzero := stored_ne_zero consistent x n stored
  by_cases first : n.block.previous = 0
  · obtain ⟨t, head, present, owner, last, _⟩ := exists_latest consistent x n stored
    obtain ⟨time, known⟩ := account_latest consistent agrees t head ⟨present, last⟩
    obtain ⟨m, opened, mate, start⟩ := chain_opened consistent t head present
    have same := consistent.chain _ m x n opened stored (mate.trans owner) (start.trans first.symm)
    refine ⟨0, fun fuel _ => ?_⟩
    beta_reduce
    rw [root_opened consistent x n stored first, ← owner, ledgerSuccessor, known]
    simp only [Note.info_openBlock, same, Option.isSome_some, true_or, ensure_true, bind_ok]
    rw [ensure_true _ nonzero, bind_ok, read, bind_ok, require_some]
  · have later : n.block.kind ≠ .openBlock := fun opening => first (open_previous n.block opening)
    obtain ⟨before, below, follows⟩ := stored_before consistent stored first
    obtain ⟨rank, top, ranked⟩ := exists_ranked consistent
    have present := exists_stored agrees.blocks below
    have covered := succ_of_child consistent stored rfl first
    have unowned : s.accounts.get n.block.previous = none := by
      apply account_absent agrees
      intro h m found owner
      rw [← owner, account_not_stored consistent _ (stored_account consistent h m found)] at below
      cases below
    have inner : ledgerLatest s before.account ≠ n.block.previous := by
      intro same
      obtain ⟨t, head, there, owner, last, _⟩ := exists_latest consistent _ before below
      obtain ⟨time, known⟩ := account_latest consistent agrees t head ⟨there, last⟩
      have here : t = n.block.previous := by simpa only [← owner, ledgerLatest, known, Note.info_head] using same
      rw [here, covered] at last
      exact nonzero last
    refine ⟨top + 1, fun fuel enough => ?_⟩
    obtain ⟨_, walked, rfl⟩ := settles_returns
      (ledger_account_settles consistent ranked (agrees_walks agrees) fuel _ before below present) enough
    beta_reduce
    rw [root_continued n.block later, ledgerSuccessor, ensure_true _ (Or.inr present), unowned]
    simp only [bind_ok, walked, ensure_true _ inner, successor_stored agrees.blocks _ before below, covered]
    rw [ensure_true _ nonzero, bind_ok, read, bind_ok, require_some]

end Place

section Runs

variable {env : Env} {fuel : Nat} {turns : Nat → Turn} (limits : 1 ≤ (turns 0).limit) {s : Store} {item : BlockProcessorItem}
include limits

theorem item_runs (t : Store) (done : Progress) (ran : processItem env (fuel + 1) (turns 0) s item [] = .ok (t, [], done)) :
    processReceiveMany env (fuel + 1) turns s [item] = flushBetween (turns 0) t >>= fun t => .ok (t, done.flatMap observe) := by
  obtain ⟨limit, size⟩ := Nat.exists_eq_add_of_le' limits
  rw [processReceiveMany, processRounds, size, processTransaction, ran]
  cases limit <;> simp [processTransaction, processRounds]

theorem item_stops (stopped : Fault) (ran : processItem env (fuel + 1) (turns 0) s item [] = .error stopped) :
    processReceiveMany env (fuel + 1) turns s [item] = .error stopped := by
  obtain ⟨limit, size⟩ := Nat.exists_eq_add_of_le' limits
  rw [processReceiveMany, processRounds, size, processTransaction, ran]
  rfl

end Runs

def Lands (env : Env) (fuel : Nat) (s : Store) (L : Lattice) (block : Block) : Prop :=
  (L.get (block.hash env) ≠ none ∧ Rewritable env s block) ∨
    ∃ n, n.block = block ∧ Attach env L (block.hash env) n ∧ Fueled env fuel s block

section Outcome

variable {env : Env} {L : Lattice} {s : Store} (consistent : Consistent env L) (agrees : Agrees L s)
  (clock : Hash → Nat) (uninit : ProcessReturn) (block : Block)

include consistent agrees

omit consistent in
theorem known_settles_one (fuel : Nat) (n : Note) (here : L.get (block.hash env) = some n) :
    Settles (processReceiveOne env fuel clock uninit s block) (fun _ => ¬ Lands env fuel s L block) fun out =>
      Lands env fuel s L block ∧ blockExists out.1 (block.hash env) = true ∧ out.1.unchecked = s.unchecked ∧
        out.1.uncheckedCache = s.uncheckedCache := by
  have known := exists_stored agrees.blocks here
  obtain ⟨existing, read, _⟩ := get_reads_as agrees.blocks _ n here
  have covered : L.succ (block.hash env) = 0 ∨ blockExists s (L.succ (block.hash env)) = true := by
    by_cases last : L.succ (block.hash env) = 0
    · exact Or.inl last
    · obtain ⟨c, found, _⟩ := succ_child L _ last
      exact Or.inr (exists_stored agrees.blocks found)
  have lands : Lands env fuel s L block ↔ Rewritable env s block := by
    constructor
    · rintro (⟨_, rewritable⟩ | ⟨_, _, attach, _⟩)
      · exact rewritable
      · rw [attach.fresh] at here
        cases here
    · exact fun rewritable => Or.inl ⟨by simp [here], rewritable⟩
  rw [lands, processReceiveOne, process_known clock uninit fuel block known, bind_ok]
  simp only [read, bind_ok]
  split
  · next better =>
      rw [successor_stored agrees.blocks _ n here, bind_ok]
      generalize L.succ (block.hash env) = successor at covered ⊢
      refine settles_bind (settles_mono (block_put_again s env block successor covered known) ?_ fun _ => id) ?_
      · rintro _ unlinked (opening | present | worse)
        · exact unlinked (Or.inl opening)
        · exact unlinked (Or.inr present)
        · exact worse existing read better
      · rintro _ ⟨linked, written, blocks, rfl⟩
        exact ⟨linked.imp_right Or.inl, written, rfl, rfl⟩
  · next worse =>
      rw [settles_ok]
      refine ⟨Or.inr (Or.inr fun other read' => ?_), known, rfl, rfl⟩
      cases read.symm.trans read'
      exact worse

theorem fresh_settles_one [HashesApart env] (fuel : Nat) (fresh : L.get (block.hash env) = none) :
    Settles (processReceiveOne env fuel clock uninit s block) (fun _ => ¬ Lands env fuel s L block) fun out =>
      (Lands env fuel s L block ∧ blockExists out.1 (block.hash env) = true ∧ out.1.unchecked = s.unchecked ∧
        out.1.uncheckedCache = s.uncheckedCache) ∨
      (¬ Lands env fuel s L block ∧ out.1.blocks = s.blocks ∧ ¬ (out.2.code = .progress ∨ out.2.code = .old)) := by
  rw [processReceiveOne]
  cases returned : ledgerProcess env fuel clock uninit s block with
  | error stopped =>
      rw [bind_error, settles_error]
      rintro (⟨present, _⟩ | ⟨n, rfl, attach, fueled⟩)
      · exact present fresh
      · obtain ⟨out, accepts, _⟩ := process_accepts consistent agrees clock uninit fuel n attach fueled
        rw [accepts] at returned
        cases returned
  | ok out =>
      obtain ⟨s', result⟩ := out
      rw [bind_ok]
      obtain ⟨n, accepted⟩ | ⟨same, refused⟩ := process_returned clock _ consistent agrees returned
      · have code : result.code = .progress := accepted.code
        simp only [code, settles_ok]
        have attach := accepted.attach
        have carries := accepted.carries
        subst carries
        refine Or.inl ⟨Or.inr ⟨n, rfl, attach, ?_⟩, ?_, accepted.unchecked, accepted.cache⟩
        · exact accepted_fueled consistent agrees clock uninit fuel n attach _ returned
        · exact exists_stored accepted.agrees.blocks (Table.get_put_self L _ n)
      · dsimp only at same refused
        subst same
        have misses : ¬ Lands env fuel s' L block := by
          rintro (⟨present, _⟩ | ⟨n, rfl, attach, _⟩)
          · exact present fresh
          · exact refused_not_attach env L n result.code consistent refused attach
        have unlisted : ¬ (result.code = .progress ∨ result.code = .old) := by
          generalize result.code = code at refused
          cases refused <;> simp_all
        cases code : result.code with
        | progress => exact absurd (Or.inl code) unlisted
        | old => exact absurd (Or.inr code) unlisted
        | _ =>
            simp only [code, settles_ok]
            exact Or.inr ⟨misses, by simp [uncheckedPut]⟩

omit consistent agrees in
theorem flush_keeps_blocks (turn : Turn) (t : Store) :
    Settles (flushBetween turn t) (fun _ => t.uncheckedCache ≠ []) fun t' => t'.blocks = t.blocks := by
  unfold flushBetween
  split
  · unfold storeFlush
    cases idle : t.uncheckedCache with
    | nil => exact settles_step rfl rfl
    | cons entry rest =>
        refine settles_bind (settles_mono (settles_any _) (fun _ _ => List.cons_ne_nil entry rest) fun _ => id) fun _ _ => rfl
  · rfl

omit consistent agrees in
theorem unchecked_idle (order : CacheOrder) (t : Store) (h : Hash) (empty : t.unchecked = .empty) (idle : t.uncheckedCache = []) :
    uncheckedGet order t h = .ok [] := by
  rw [uncheckedGet, empty, idle, Table.get_empty]
  exact congrArg Except.ok ((List.append_nil _).trans (order h []).property.eq_nil)

theorem one_settles [HashesApart env] (fuel : Nat) :
    Settles (processReceiveOne env fuel clock uninit s block) (fun _ => ¬ Lands env fuel s L block) fun out =>
      (Lands env fuel s L block ∧ blockExists out.1 (block.hash env) = true ∧ out.1.unchecked = s.unchecked ∧
        out.1.uncheckedCache = s.uncheckedCache) ∨
      (¬ Lands env fuel s L block ∧ L.get (block.hash env) = none ∧ out.1.blocks = s.blocks ∧
        ¬ (out.2.code = .progress ∨ out.2.code = .old)) := by
  cases here : L.get (block.hash env) with
  | some n => exact settles_mono (known_settles_one agrees clock uninit block fuel n here) (fun _ => id) fun _ => Or.inl
  | none =>
      refine settles_mono (fresh_settles_one consistent agrees clock uninit block fuel here) (fun _ => id) fun _ outcome => ?_
      exact outcome.imp_right fun ⟨misses, kept, unlisted⟩ => ⟨misses, rfl, kept, unlisted⟩

theorem forced_settles [HashesApart env] (fuel : Nat) (turns : Nat → Turn) (limits : 1 ≤ (turns 0).limit) (start : Store)
    (forced : forceItem env (fuel + 1) (turns 0).clock start ⟨block, true⟩ = .ok s) (empty : s.unchecked = .empty)
    (idle : s.uncheckedCache = []) :
    Settles (processReceiveMany env (fuel + 1) turns start [⟨block, true⟩]) (fun _ => ¬ Lands env (fuel + 1) s L block) fun out =>
      (Lands env (fuel + 1) s L block ∧ blockExists out.1 (block.hash env) = true) ∨
        (¬ Lands env (fuel + 1) s L block ∧ L.get (block.hash env) = none ∧ out.1.blocks = s.blocks) := by
  have settled := one_settles consistent agrees (turns 0).clock (turns 0).uninit block (fuel + 1)
  cases ran : processReceiveOne env (fuel + 1) (turns 0).clock (turns 0).uninit s block with
  | error stopped =>
      rw [ran, settles_error] at settled
      rw [item_stops limits stopped (by rw [processItem, forced, bind_ok, ran, bind_error]), settles_error]
      exact settled
  | ok out =>
      rw [ran, settles_ok] at settled
      obtain ⟨lands, written, same, same'⟩ | ⟨misses, fresh, kept, unlisted⟩ := settled
      · obtain ⟨done, item⟩ : ∃ done, processItem env (fuel + 1) (turns 0) start ⟨block, true⟩ [] = .ok (out.1, [], done) := by
          rw [processItem, forced, bind_ok, ran, bind_ok]
          dsimp only
          split
          · rw [unchecked_idle _ out.1 _ (same.trans empty) (same'.trans idle), bind_ok]
            exact ⟨_, rfl⟩
          · exact ⟨[], rfl⟩
        rw [item_runs limits out.1 done item]
        refine settles_bind (settles_mono (flush_keeps_blocks _ _) (fun _ busy => absurd (same'.trans idle) busy) fun _ =>
          id) fun t flushed => ?_
        rw [settles_ok]
        refine Or.inl ⟨lands, ?_⟩
        rw [blockExists, flushed]
        exact written
      · have item : processItem env (fuel + 1) (turns 0) start ⟨block, true⟩ [] = .ok (out.1, [], []) := by
          rw [processItem, forced, bind_ok, ran, bind_ok]
          exact if_neg unlisted
        rw [item_runs limits out.1 [] item]
        refine settles_bind (settles_mono (flush_keeps_blocks _ _) (fun _ _ => misses) fun _ => id) fun t flushed => ?_
        rw [settles_ok]
        exact Or.inr ⟨misses, fresh, flushed.trans kept⟩

end Outcome

def SameLedger (s t : Store) : Prop := t = { s with unchecked := t.unchecked, uncheckedCache := t.uncheckedCache }

def AllOrNothing (env : Env) (turns : Nat → Turn) (s : Store) (block : Block) : Prop :=
  ∃ bound, ∀ fuel, bound ≤ fuel → ∃ t seen, processReceiveMany env fuel turns s [⟨block, true⟩] = .ok (t, seen) ∧
    (blockExists t (block.hash env) = true ∨ SameLedger s t)

theorem admissible_fueled (env : Env) (s : Store) (h : Hash) (block : Block) (admissible : Admissible env s h block) :
    ∃ late, ∀ fuel, late ≤ fuel → Fueled env fuel s block := by
  have plain : block.kind ≠ .changeBlock → block.kind ≠ .sendBlockV2 → ∃ late, ∀ fuel, late ≤ fuel → Fueled env fuel s block :=
    fun unchanged legacy => ⟨0, fun fuel _ => ⟨fun changing => absurd changing unchanged, legacy_loads env fuel block legacy⟩⟩
  cases admissible with
  | change previous representative owner fields _ _ _ computes =>
      have prior : block.previous = previous := by simp [Block.previous, fields]
      obtain ⟨late, returns⟩ := computes
      exact ⟨late, fun fuel enough => ⟨fun _ => prior ▸ returns fuel enough, by simp [Block.loads, fields]⟩⟩
  | contract _ _ _ _ fields _ _ loads =>
      obtain ⟨late, loads⟩ := loads
      refine ⟨late, fun fuel enough => ⟨fun changing => ?_, loads_later env late fuel block loads enough⟩⟩
      simp [Block.kind, fields] at changing
  | send _ _ _ _ _ fields => exact plain (by simp [Block.kind, fields]) (by simp [Block.kind, fields])
  | receive _ _ _ fields => exact plain (by simp [Block.kind, fields]) (by simp [Block.kind, fields])
  | opens _ _ _ fields => exact plain (by simp [Block.kind, fields]) (by simp [Block.kind, fields])

section Replaced

variable {env : Env} {M : Lattice} {s : Store} {loser block : Block} (upper : Consistent env M)
  (agrees : Agrees M s) (stored : blockGet s (loser.hash env) = .ok (some loser)) (root : loser.root = block.root)
  (other : loser.hash env ≠ block.hash env)
include agrees stored root

theorem place_taken : ∃ m, M.get (loser.hash env) = some m ∧ m.block.root = block.root := by
  obtain ⟨m, found, same⟩ := read_stored agrees stored
  exact ⟨m, found, (reads_as_root m.block loser same).symm.trans root⟩

variable [HashesApart env]
include upper

include other in
theorem force_rolls_back (clock : Hash → Nat) : ∃ bound, ∀ fuel, bound ≤ fuel →
    forceItem env fuel clock s ⟨block, true⟩ = ledgerRollback env clock fuel s (loser.hash env) := by
  obtain ⟨m, found, same⟩ := place_taken agrees stored root
  obtain ⟨bound, yields⟩ := successor_found upper agrees _ m loser found stored
  refine ⟨bound, fun fuel enough => ?_⟩
  have successor := yields fuel enough
  beta_reduce at successor
  rw [same] at successor
  rw [forceItem, if_pos rfl, successor, bind_ok, if_pos other]

omit agrees stored root in
theorem fueled_below {L : Lattice} {s' : Store} {h : Hash} (agrees : Agrees M s) (cut : Cut env M h s L s') (fuel : Nat) (n : Note)
    (attach : Attach env L (n.block.hash env) n) : Fueled env fuel s' n.block ↔ Fueled env fuel s n.block := by
  have same : n.block.kind = .changeBlock → ledgerBalance env fuel s' n.block.previous = ledgerBalance env fuel s n.block.previous := by
    intro changing
    obtain ⟨before, stored, _⟩ := entry_before attach.entry (by simp [changing])
    exact balance_below cut.consistent upper agrees cut.becomes.agrees cut.below fuel _ before stored
  constructor
  · rintro ⟨balance, loads⟩
    exact ⟨fun changing => same changing ▸ balance changing, loads⟩
  · rintro ⟨balance, loads⟩
    exact ⟨fun changing => (same changing).symm ▸ balance changing, loads⟩

omit stored root in
theorem lands_kept_or_attached {L : Lattice} {s' : Store} {h : Hash} {m : Note} (found : M.get h = some m)
    (same : m.block.root = block.root) (cut : Cut env M h s L s') (fuel : Nat) (lands : Lands env fuel s' L block) :
    Kept env s h block ∨ ∃ n, n.block = block ∧ Attach env L (block.hash env) n ∧ Fueled env fuel s block := by
  obtain ⟨present, rewritable⟩ | ⟨n, rfl, attach, fueled⟩ := lands
  · obtain ⟨before, stays⟩ := (kept_iff upper agrees found cut _).mp present
    exact Or.inl ⟨(exists_iff agrees.blocks _).mpr before, stays,
      (rewritable_iff upper agrees found cut block same present).mp rewritable⟩
  · exact Or.inr ⟨n, rfl, attach, (fueled_below upper agrees cut fuel n attach).mp fueled⟩

omit stored root in
theorem lands_of {L : Lattice} {s' : Store} {h : Hash} {m : Note} (found : M.get h = some m) (same : m.block.root = block.root)
    (cut : Cut env M h s L s') (fuel : Nat) (valid : Kept env s h block ∨ Admissible env s h block ∧ Fueled env fuel s block) :
    Lands env fuel s' L block := by
  have again : L.get (block.hash env) ≠ none → Rewritable env s block → Lands env fuel s' L block := fun present rewritable =>
    Or.inl ⟨present, (rewritable_iff upper agrees found cut block same present).mpr rewritable⟩
  obtain kept | ⟨admissible, fueled⟩ := valid
  · exact again ((kept_iff upper agrees found cut _).mpr ⟨(exists_iff agrees.blocks _).mp kept.present, kept.stays⟩) kept.rewritable
  · by_cases fresh : L.get (block.hash env) = none
    · obtain ⟨n, rfl, attach⟩ := admissible_attaches upper agrees found cut block same fresh admissible
      exact Or.inr ⟨n, rfl, attach, (fueled_below upper agrees cut fuel n attach).mpr fueled⟩
    · exact again fresh (admissible_rewritable upper agrees h block admissible)

section Whole

variable (turns : Nat → Turn) (limits : ∀ k, 1 ≤ (turns k).limit) (empty : s.unchecked = .empty) (idle : s.uncheckedCache = [])

omit root in
theorem rollback_cuts (clock : Hash → Nat) (fuel : Nat) (s' : Store)
    (rolled : ledgerRollback env clock fuel s (loser.hash env) = .ok s') :
    loser.hash env ≠ genesisHash env ∧ ∃ L, Cut env M (loser.hash env) s L s' := by
  obtain ⟨m, found, _⟩ := read_stored agrees stored
  have later : loser.hash env ≠ genesisHash env := fun genesis => genesis_stays M s s' fuel upper agrees (genesis ▸ rolled)
  exact ⟨later, rollback_returned clock upper agrees (exists_stored agrees.blocks found) later rolled⟩

omit root in
theorem removable_returns (clock : Hash → Nat) (removable : Removable env s (loser.hash env)) :
    Returns fun fuel => ledgerRollback env clock fuel s (loser.hash env) := by
  obtain ⟨m, found, _⟩ := read_stored agrees stored
  obtain ⟨later, undoable⟩ := (removable_iff agrees found).mp removable
  exact ledger_rollback_returns env clock M s _ m upper agrees found later undoable

omit root in
theorem cut_removable {L : Lattice} {s' : Store} (later : loser.hash env ≠ genesisHash env) (cut : Cut env M (loser.hash env) s L s') :
    Removable env s (loser.hash env) := by
  obtain ⟨m, found, _⟩ := read_stored agrees stored
  refine (removable_iff agrees found).mpr ⟨later, fun x n there depends => ?_⟩
  exact (cut.only x n there ((cut_get upper cut x).mpr (Or.inr depends))).2

omit root in
theorem removable_legacy (later : loser.hash env ≠ genesisHash env) (none : ∀ x, (s.blocks .sendBlockV2).get x = none) :
    Removable env s (loser.hash env) := by
  obtain ⟨m, found, _⟩ := read_stored agrees stored
  obtain ⟨rank, top, ranked⟩ := exists_ranked upper
  have legacy : Legacy M := fun h n there contract => (contract_stored agrees h).mpr ⟨n, there, contract⟩ (none h)
  have frees := frees_legacy env rank top M (loser.hash env) s ⟨upper, agrees, ranked⟩ legacy
  refine (removable_iff agrees found).mpr ⟨later, fun x n there depends => ?_⟩
  exact ⟨(frees x n there depends).1, _, (frees x n there depends).2⟩

include other limits empty idle

theorem whole_lands (whole : AllOrNothing env turns s block) : ∃ bound, ∀ fuel, bound ≤ fuel → ∃ s' L,
    loser.hash env ≠ genesisHash env ∧ Cut env M (loser.hash env) s L s' ∧ Lands env (fuel + 1) s' L block := by
  obtain ⟨bound, runs⟩ := whole
  obtain ⟨enough, forces⟩ := force_rolls_back upper agrees stored root other (turns 0).clock
  refine ⟨bound + enough, fun fuel large => ?_⟩
  obtain ⟨t, seen, ran, outcome⟩ := runs (fuel + 1) (by omega)
  have forced := forces (fuel + 1) (by omega)
  cases undone : ledgerRollback env (turns 0).clock (fuel + 1) s (loser.hash env) with
  | error stopped =>
      have stops := item_stops (limits 0) stopped (by rw [processItem, forced, undone, bind_error])
      rw [stops] at ran
      cases ran
  | ok s' =>
      rw [undone] at forced
      obtain ⟨later, L, cut⟩ := rollback_cuts upper agrees stored _ _ s' undone
      have settled := forced_settles cut.consistent cut.becomes.agrees block fuel turns (limits 0) s forced
        (cut.becomes.unchecked.trans empty) (cut.becomes.cache.trans idle)
      rw [ran, settles_ok] at settled
      obtain ⟨lands, _⟩ | ⟨_, fresh, kept⟩ := settled
      · exact ⟨s', L, later, cut, lands⟩
      · -- The block is not there, and the one it was to replace is gone.
        exfalso
        obtain written | unchanged := outcome
        · rw [blockExists, kept] at written
          exact absurd ((exists_iff cut.becomes.agrees.blocks _).mp written) (not_not.mpr fresh)
        · have blocks : t.blocks = s.blocks := by rw [unchanged]
          obtain ⟨m, found, _⟩ := read_stored agrees stored
          have present := exists_stored agrees.blocks found
          rw [blockExists, ← blocks, kept] at present
          exact (exists_iff cut.becomes.agrees.blocks _).mp present cut.removed

theorem whole_valid (whole : AllOrNothing env turns s block) :
    Removable env s (loser.hash env) ∧ (Kept env s (loser.hash env) block ∨ Admissible env s (loser.hash env) block) := by
  obtain ⟨m, found, same⟩ := place_taken agrees stored root
  obtain ⟨bound, rolled⟩ := whole_lands upper agrees stored root other turns limits empty idle whole
  obtain ⟨_, _, later, gone, _⟩ := rolled bound (Nat.le_refl bound)
  refine ⟨cut_removable upper agrees stored later gone, ?_⟩
  by_cases kept : Kept env s (loser.hash env) block
  · exact Or.inl kept
  have attached : ∀ fuel, bound ≤ fuel → ∃ s' L n, Cut env M (loser.hash env) s L s' ∧ n.block = block ∧
    Attach env L (block.hash env) n ∧
      Fueled env (fuel + 1) s block := by
    intro fuel large
    obtain ⟨s', L, _, cut, lands⟩ := rolled fuel large
    obtain ⟨n, attach⟩ := (lands_kept_or_attached upper agrees found same cut (fuel + 1) lands).resolve_left kept
    exact ⟨s', L, n, cut, attach⟩
  obtain ⟨s', L, n, cut, rfl, attach, first⟩ := attached bound (Nat.le_refl bound)
  refine Or.inr
    (attached_admissible upper agrees found cut n attach (fun changing => ⟨bound + 1, fun fuel large => ?_⟩) ⟨_, first.loads⟩)
  obtain ⟨fuel, rfl⟩ := Nat.exists_eq_add_of_le' (Nat.le_trans (Nat.le_add_left 1 _) large)
  obtain ⟨_, _, _, _, _, _, fueled⟩ := attached fuel (by omega)
  exact fueled.balance changing

theorem valid_whole (removable : Removable env s (loser.hash env))
    (valid : Kept env s (loser.hash env) block ∨ Admissible env s (loser.hash env) block) : AllOrNothing env turns s block := by
  obtain ⟨m, found, same⟩ := place_taken agrees stored root
  obtain ⟨bound, undoes⟩ := removable_returns upper agrees stored (turns 0).clock removable
  obtain ⟨enough, forces⟩ := force_rolls_back upper agrees stored root other (turns 0).clock
  obtain ⟨late, fueled⟩ : ∃ late, ∀ fuel, late ≤ fuel → Admissible env s (loser.hash env) block → Fueled env fuel s block := by
    by_cases admissible : Admissible env s (loser.hash env) block
    · obtain ⟨late, fueled⟩ := admissible_fueled env s _ block admissible
      exact ⟨late, fun fuel large _ => fueled fuel large⟩
    · exact ⟨0, fun _ _ other => absurd other admissible⟩
  refine ⟨bound + enough + late + 1, fun fuel large => ?_⟩
  obtain ⟨fuel, rfl⟩ := Nat.exists_eq_add_of_le' (Nat.le_trans (Nat.le_add_left 1 _) large)
  obtain ⟨s', undone⟩ := undoes (fuel + 1) (by omega)
  obtain ⟨_, L, cut⟩ := rollback_cuts upper agrees stored _ _ s' undone
  have lands := lands_of upper agrees found same cut (fuel + 1)
    (valid.imp_right fun admissible => ⟨admissible, fueled (fuel + 1) (by omega) admissible⟩)
  have settled := forced_settles cut.consistent cut.becomes.agrees block fuel turns (limits 0) s
    ((forces (fuel + 1) (by omega)).trans undone) (cut.becomes.unchecked.trans empty) (cut.becomes.cache.trans idle)
  cases ran : processReceiveMany env (fuel + 1) turns s [⟨block, true⟩] with
  | error stopped =>
      rw [ran, settles_error] at settled
      exact absurd lands settled
  | ok out =>
      rw [ran, settles_ok] at settled
      obtain ⟨_, written⟩ | ⟨misses, _⟩ := settled
      · exact ⟨out.1, out.2, rfl, Or.inl written⟩
      · exact absurd lands misses

end Whole

end Replaced

-- What must hold of the state before: the losing block can be rolled back, and the new one is valid in its place.
theorem forced_replacement_whole (env : Env) (apart : HashesApart env) (s : Store) (reached : Reachable env s) (turns : Nat → Turn)
    (limits : ∀ k, 1 ≤ (turns k).limit) (loser block : Block) (stored : blockGet s (loser.hash env) = .ok (some loser))
    (root : loser.root = block.root) (other : loser.hash env ≠ block.hash env) :
    AllOrNothing env turns s block ↔
      Removable env s (loser.hash env) ∧ (Kept env s (loser.hash env) block ∨ Admissible env s (loser.hash env) block) := by
  obtain ⟨M, upper, agrees⟩ := reachable_agrees reached
  obtain ⟨empty, idle⟩ := reachable_unchecked env s reached
  constructor
  · exact whole_valid upper agrees stored root other turns limits empty idle
  · rintro ⟨removable, valid⟩
    exact valid_whole upper agrees stored root other turns limits empty idle removable valid

def sampleTurns : Nat → Turn := fun _ => ⟨1, true, fun _ => 0, ⟨.progress, 0, 0, 0⟩, insertionOrder⟩

def rivalSend : Block := ⟨.sendBlock (genesisHash sampleEnv) (sampleKey 2) 4, 0, 0⟩

theorem sample_send_stored : ∃ s, s ∈ replayAll sampleEnv 5 [sampleSend] ∧ Replay sampleEnv [sampleSend] s ∧ Reachable sampleEnv s ∧
    blockGet s (sampleSend.hash sampleEnv) = .ok (some sampleSend) ∧ ∀ x, (s.blocks .sendBlockV2).get x = none := by
  obtain ⟨s, run, replay, read⟩ := replay_checked sampleEnv 5 [sampleSend] (fun s =>
    blockGet s (sampleSend.hash sampleEnv) = .ok (some sampleSend)) (by decide +kernel)
  have reached := replay_reachable replay
  obtain ⟨L, built, plain⟩ := replay_builds [sampleSend] s (by decide) replay
  have legacy := builds_legacy built (by decide)
  refine ⟨s, run, replay, reached, read, fun x => ?_⟩
  by_contra present
  obtain ⟨n, stored, contract⟩ := (contract_stored plain.agrees x).mp present
  exact legacy x n stored contract

theorem forced_replacement_whole_sample : ∃ s, Replay sampleEnv [sampleSend] s ∧ AllOrNothing sampleEnv sampleTurns s rivalSend := by
  obtain ⟨s, _, replay, reached, stored, plain⟩ := sample_send_stored
  obtain ⟨M, upper, agrees⟩ := reachable_agrees reached
  have removable := removable_legacy upper agrees stored (by decide +kernel) plain
  have whole := forced_replacement_whole sampleEnv sample_apart s reached sampleTurns
    (fun _ => Nat.le_refl 1) sampleSend rivalSend stored rfl
    (by decide +kernel)
  refine ⟨s, replay, whole.mpr ⟨removable, Or.inr ?_⟩⟩
  obtain ⟨stamp, first⟩ := upper.genesis
  have owner : (genesisNote sampleEnv stamp).account = genesisAccount sampleEnv.network := rfl
  refine .send _ _ (genesisAccount sampleEnv.network) _ genesisAmount rfl ?_ ?_ ?_ (by decide)
  · exact (on_chain_iff upper agrees _ _ first _).mpr owner.symm
  · have unsigned : rivalSend.signature = 0 := rfl
    rw [unsigned]
    exact sample_signed _ _ (Or.inl rfl)
  · exact worth_stored upper agrees _ _ first

def forgedRival : Block := { rivalSend with signature := 1 }

theorem forged_rival_removes : ∃ s, Replay sampleEnv [sampleSend] s ∧ blockGet s (sampleSend.hash sampleEnv) = .ok (some sampleSend) ∧
    sampleSend.root = forgedRival.root ∧ sampleSend.hash sampleEnv ≠ forgedRival.hash sampleEnv ∧
    (∃ t seen, processReceiveMany sampleEnv 20 sampleTurns s [⟨forgedRival, true⟩] = .ok (t, seen) ∧
      blockExists t (sampleSend.hash sampleEnv) = false ∧ blockExists t (forgedRival.hash sampleEnv) = false) ∧
    ¬ AllOrNothing sampleEnv sampleTurns s forgedRival := by
  obtain ⟨s, run, replay, reached, stored, _⟩ := sample_send_stored
  have root : sampleSend.root = forgedRival.root := rfl
  have other : sampleSend.hash sampleEnv ≠ forgedRival.hash sampleEnv := by decide +kernel
  have gone : ∀ s ∈ replayAll sampleEnv 5 [sampleSend], blockExists s (forgedRival.hash sampleEnv) = false ∧
      ((processReceiveMany sampleEnv 20 sampleTurns s [⟨forgedRival, true⟩]).toOption.map fun out =>
        (blockExists out.1 (sampleSend.hash sampleEnv), blockExists out.1 (forgedRival.hash sampleEnv))) = some (false, false) := by
    decide +kernel
  obtain ⟨absent, outcome⟩ := gone s run
  refine ⟨s, replay, stored, root, other, ?_, ?_⟩
  · cases out : processReceiveMany sampleEnv 20 sampleTurns s [⟨forgedRival, true⟩] with
    | error fault =>
        rw [out] at outcome
        cases outcome
    | ok result =>
        rw [out] at outcome
        have both := Option.some.inj outcome
        exact ⟨result.1, result.2, rfl, congrArg Prod.fst both, congrArg Prod.snd both⟩
  · intro whole
    obtain ⟨M, upper, agrees⟩ := reachable_agrees reached
    obtain ⟨empty, idle⟩ := reachable_unchecked sampleEnv s reached
    obtain ⟨_, kept | admissible⟩ := whole_valid upper agrees stored root other sampleTurns (fun _ => Nat.le_refl 1) empty idle whole
    · rw [kept.present] at absent
      cases absent
    · cases admissible with
      | send _ _ owner _ _ _ _ signed =>
          have odd : forgedRival.signature = 1 := rfl
          rw [odd, sample_unsigned owner] at signed
          cases signed
      | receive _ _ _ fields => cases fields
      | opens _ _ _ fields => cases fields
      | change _ _ _ fields => cases fields
      | contract _ _ _ _ fields => cases fields

end Rai
