import Raiblocks.Election
import Raiblocks.Forced
import Raiblocks.Kit.Runs
import Raiblocks.Wallet

set_option autoImplicit false

namespace Rai

open Kit

def WalletStore.representative (wallet : WalletStore) : Account := (wallet.entryGetRaw representativeSpecial).key

-- What `confirm_once` has left to the background. One task forces the winner, round by round; the other goes through the
-- wallets and then calls the confirmation action. `seen` says of each step of the second whether the block was in the ledger.
structure Confirming where
  store : Store
  queue : List BlockProcessorItem
  wallets : List WalletStore
  acting : Option Block
  receives : List (Account × Amount)
  seen : List Bool

-- `confirmed_visitor` looks at the wallets for a send only.
def visited (wallets : List WalletStore) (block : Block) : List WalletStore :=
  match block.hashables with
  | .sendBlock _ _ _ => wallets
  | _ => []

def post (wallets : List WalletStore) (state : Confirming) : ElectionAction → Confirming
  | .force block => { state with queue := state.queue ++ [⟨block, true⟩] }
  | .confirm block => { state with wallets := visited wallets block, acting := some block }

def posted (s : Store) (wallets : List WalletStore) (actions : List ElectionAction) : Confirming :=
  actions.foldl (post wallets) ⟨s, [], [], none, [], []⟩

section Model

variable (env : Env)

def visitWallet (s : Store) (wallet : WalletStore) (block : Block) : List (Account × Amount) :=
  match block.hashables with
  | .sendBlock _ destination _ =>
      if wallet.exists destination then
        match s.pending.get ⟨destination, block.hash env⟩ with
        | some pending => [(wallet.representative, pending.amount)]
        | none => []
      else []
  | _ => []

inductive ConfirmAction where
  | process (fuel : Nat) (turn : Turn)
  | visit
  | act

-- The steps of the two tasks. A transaction of the first is one step for the second, which reads what has been committed.
inductive ConfirmStep : Confirming → ConfirmAction → Confirming → Prop where
  | process (state : Confirming) (fuel : Nat) (turn : Turn) (out : Store × List BlockProcessorItem × Progress) (s : Store)
      (busy : state.queue ≠ []) (returned : processTransaction env fuel turn turn.limit state.store state.queue = .ok out)
      (flushed : flushBetween turn out.1 = .ok s) : ConfirmStep state (.process fuel turn) { state with store := s, queue := out.2.1 }
  | visit (state : Confirming) (block : Block) (wallet : WalletStore) (rest : List WalletStore) (left : state.acting = some block)
      (next : state.wallets = wallet :: rest) : ConfirmStep state .visit
        { state with
          wallets := rest
          receives := state.receives ++ visitWallet env state.store wallet block
          seen := state.seen ++ [blockExists state.store (block.hash env)] }
  | act (state : Confirming) (block : Block) (left : state.acting = some block) (done : state.wallets = []) : ConfirmStep state .act
      { state with acting := none, seen := state.seen ++ [blockExists state.store (block.hash env)] }

def Succeeds (fuel : Nat) (turn : Turn) (s : Store) (block : Block) : Prop :=
  ∀ s' out, forceItem env fuel turn.clock s ⟨block, true⟩ = .ok s' →
    processReceiveOne env fuel turn.clock turn.uninit s' block = .ok out → out.2.code = .progress ∨ out.2.code = .old

def Succeeding (state : Confirming) : ConfirmAction → Prop
  | .process fuel turn => 0 < turn.limit → ∀ item ∈ state.queue.head?, item.force = true → Succeeds env fuel turn state.store item.block
  | _ => True

end Model

def KeepsBlocks (s t : Store) : Prop := ∀ h, blockExists s h = true → blockExists t h = true

theorem keeps_same (s t : Store) (same : t.blocks = s.blocks) : KeepsBlocks s t := by
  intro h present
  rwa [blockExists, same]

section Keeping

variable (env : Env) (clock : Hash → Nat) (uninit : ProcessReturn) (s : Store) (block : Block)

structure BlockHeld (h : Hash) (t : Store) : Prop where
  stored : blockExists t h = true
  kept : KeepsBlocks s t

theorem holding_same {h : Hash} {t : Store} (u : Store) (holding : BlockHeld s h t) (same : u.blocks = t.blocks) : BlockHeld s h u :=
  ⟨keeps_same t u same h holding.stored, fun x present => keeps_same t u same x (holding.kept x present)⟩

theorem put_raw_keeps (kind : Kind) (h : Hash) (value : Bytes) : KeepsBlocks s (blockPutRaw s kind h value) :=
  fun x present => (put_raw_exists s kind h x value).mpr (Or.inr present)

theorem predecessor_keeps : Settles (setPredecessor env s block) (fun _ => True) (KeepsBlocks s) := by
  have filled : Settles (fillValue env s block) (fun _ => True) (KeepsBlocks s) :=
    settles_bind (settles_any _) fun row _ => put_raw_keeps s row.1 block.previous _
  unfold setPredecessor
  split
  · exact fun _ present => present
  · exact filled

theorem put_holding (h : Hash) (t : Store) (successor : Hash) (same : t.blocks = s.blocks) :
    Settles (blockPut env t h block successor) (fun _ => True) (BlockHeld s h) := by
  refine settles_bind (settles_any _) fun _ _ => ?_
  refine settles_bind (predecessor_keeps env _ block) fun u keeps => ?_
  have holding : BlockHeld s h u := ⟨keeps h ((put_raw_exists _ _ _ _ _).mpr (Or.inl rfl)),
    fun x present => keeps x (put_raw_keeps t _ _ _ x (keeps_same s t same x present))⟩
  split
  · exact holding
  · exact settles_bind (settles_any _) fun _ _ => settles_bind (settles_any _) fun _ _ => holding

theorem frontier_del_blocks (h : Hash) : Settles (frontierDel s h) (fun _ => True) fun s' => s'.blocks = s.blocks :=
  settles_bind (settles_any _) fun _ _ => rfl

theorem pending_del_blocks (key : PendingKey) : Settles (pendingDel s key) (fun _ => True) fun s' => s'.blocks = s.blocks :=
  settles_bind (settles_any _) fun _ _ => rfl

def Enters (out : Store × ProcessReturn) : Prop :=
  KeepsBlocks s out.1 ∧ (out.2.code = .progress ∨ out.2.code = .old → blockExists out.1 (block.hash env) = true)

theorem enters_old (present : blockExists s (block.hash env) = true) (result : ProcessReturn) : Enters env s block (s, result) :=
  ⟨fun _ => id, fun _ => present⟩

theorem enters_refused (result : ProcessReturn) (refused : ¬ (result.code = .progress ∨ result.code = .old)) :
    Enters env s block (s, result) :=
  ⟨fun _ => id, fun entered => absurd entered refused⟩

theorem enters_unless {p : Prop} [Decidable p] {result : ProcessReturn} {rest : Except Fault (Store × ProcessReturn)}
    (refused : ¬ (result.code = .progress ∨ result.code = .old)) (goes : Settles rest (fun _ => True) (Enters env s block)) :
    Settles (if p then .ok (s, result) else rest) (fun _ => True) (Enters env s block) :=
  settles_unless (fun _ => enters_refused env s block result refused) fun _ => goes

theorem enters_held (t : Store) (result : ProcessReturn) (holding : BlockHeld s (block.hash env) t) : Enters env s block (t, result) :=
  ⟨holding.kept, fun _ => holding.stored⟩

theorem send_enters (previous : Hash) (destination : Account) (balance : Amount) :
    Settles (processSend env clock uninit s block previous destination balance) (fun _ => True) (Enters env s block) := by
  unfold processSend
  dsimp only
  refine settles_unless (fun present => enters_old env s block present _) fun _ => ?_
  refine enters_unless env s block (by simp) ?_
  refine enters_unless env s block (by simp) ?_
  refine enters_unless env s block (by simp) ?_
  refine settles_bind (settles_any _) fun info _ => settles_bind (settles_any _) fun _ _ => ?_
  refine enters_unless env s block (by simp) ?_
  refine settles_bind (representation_add_blocks s _ _) fun weighed same => ?_
  refine settles_bind (put_holding env s block _ weighed 0 same) fun written holding => ?_
  refine settles_bind (change_latest_blocks written _ _ _ _ _) fun latest same' => ?_
  refine settles_bind (frontier_del_blocks _ _) fun moved same'' => ?_
  exact enters_held env s block _ _ (holding_same s _ holding (same''.trans same'))

theorem send_v2_enters (fuel : Nat) (previous : Hash) (destination : Account) (action : Bytes) :
    Settles (processSendV2 env fuel clock uninit s block previous destination action) (fun _ => True) (Enters env s block) := by
  unfold processSendV2
  dsimp only
  refine settles_unless (fun present => enters_old env s block present _) fun _ => ?_
  refine enters_unless env s block (by simp) ?_
  refine enters_unless env s block (by simp) ?_
  refine enters_unless env s block (by simp) ?_
  refine settles_bind (settles_any _) fun info _ => settles_bind (settles_any _) fun _ _ => settles_bind (settles_any _) fun _ _ => ?_
  refine settles_bind (put_holding env s block _ (accountSetCode s _ action) 0 rfl) fun written holding => ?_
  refine settles_bind (change_latest_blocks written _ _ _ _ _) fun latest same => ?_
  refine settles_bind (frontier_del_blocks _ _) fun moved last => ?_
  exact enters_held env s block _ _ (holding_same s _ holding (last.trans same))

theorem change_enters (fuel : Nat) (previous : Hash) :
    Settles (processChange env fuel clock uninit s block previous) (fun _ => True) (Enters env s block) := by
  unfold processChange
  dsimp only
  refine settles_unless (fun present => enters_old env s block present _) fun _ => ?_
  refine enters_unless env s block (by simp) ?_
  refine enters_unless env s block (by simp) ?_
  refine settles_bind (settles_any _) fun info _ => settles_bind (settles_any _) fun _ _ => ?_
  refine enters_unless env s block (by simp) ?_
  refine settles_bind (put_holding env s block _ s 0 rfl) fun written holding => ?_
  refine settles_bind (settles_any _) fun _ _ => ?_
  refine settles_bind (representation_add_blocks written _ _) fun weighed same => ?_
  refine settles_bind (representation_add_blocks weighed _ _) fun weighed' same' => ?_
  refine settles_bind (change_latest_blocks weighed' _ _ _ _ _) fun latest same'' => ?_
  refine settles_bind (frontier_del_blocks _ _) fun moved last => ?_
  exact enters_held env s block _ _ (holding_same s _ holding (last.trans (same''.trans (same'.trans same))))

theorem receive_enters (previous source : Hash) :
    Settles (processReceive env clock uninit s block previous source) (fun _ => True) (Enters env s block) := by
  unfold processReceive
  dsimp only
  refine settles_unless (fun present => enters_old env s block present _) fun _ => ?_
  refine enters_unless env s block (by simp) ?_
  refine enters_unless env s block (by cases blockExists s previous <;> simp) ?_
  refine enters_unless env s block (by simp) ?_
  refine enters_unless env s block (by simp) ?_
  split
  · exact enters_refused env s block _ (by simp)
  refine settles_bind (settles_any _) fun _ _ => ?_
  refine settles_bind (pending_del_blocks s _) fun taken same => ?_
  refine settles_bind (put_holding env s block _ taken 0 same) fun written holding => ?_
  refine settles_bind (change_latest_blocks written _ _ _ _ _) fun latest same' => ?_
  refine settles_bind (representation_add_blocks latest _ _) fun weighed same'' => ?_
  refine settles_bind (frontier_del_blocks _ _) fun moved last => ?_
  exact enters_held env s block _ _ (holding_same s _ holding (last.trans (same''.trans same')))

theorem open_enters (source : Hash) (account : Account) :
    Settles (processOpen env clock uninit s block source account) (fun _ => True) (Enters env s block) := by
  unfold processOpen
  dsimp only
  refine settles_unless (fun present => enters_old env s block present _) fun _ => ?_
  refine enters_unless env s block (by simp) ?_
  refine enters_unless env s block (by simp) ?_
  refine enters_unless env s block (by simp) ?_
  split
  · exact enters_refused env s block _ (by simp)
  refine enters_unless env s block (by simp) ?_
  refine settles_bind (settles_any _) fun _ _ => ?_
  refine settles_bind (pending_del_blocks s _) fun taken same => ?_
  refine settles_bind (put_holding env s block _ taken 0 same) fun written holding => ?_
  refine settles_bind (change_latest_blocks written _ _ _ _ _) fun latest same' => ?_
  refine settles_bind (representation_add_blocks latest _ _) fun weighed same'' => ?_
  exact enters_held env s block _ _ (holding_same s _ holding (same''.trans same'))

theorem process_enters (fuel : Nat) : Settles (ledgerProcess env fuel clock uninit s block) (fun _ => True) (Enters env s block) := by
  unfold ledgerProcess
  split
  · exact send_enters env clock uninit s block _ _ _
  · exact receive_enters env clock uninit s block _ _
  · exact open_enters env clock uninit s block _ _
  · exact change_enters env clock uninit s block fuel _
  · exact send_v2_enters env clock uninit s block fuel _ _ _

theorem receive_one_enters (fuel : Nat) :
    Settles (processReceiveOne env fuel clock uninit s block) (fun _ => True) (Enters env s block) := by
  refine settles_bind (process_enters env clock uninit s block fuel) fun out entered => ?_
  dsimp only
  split
  · next code => exact ⟨entered.1, fun good => by simp [code] at good⟩
  · next code => exact ⟨entered.1, fun good => by simp [code] at good⟩
  · refine settles_bind (settles_any _) fun existing _ => ?_
    split
    · split
      · refine settles_bind (settles_any _) fun successor _ => ?_
        refine settles_bind (put_holding env out.1 block (block.hash env) out.1 successor rfl) fun written holding => ?_
        exact ⟨fun h present => holding.kept h (entered.1 h present), fun _ => holding.stored⟩
      · exact entered
    · exact entered
  · exact entered

end Keeping

theorem unchecked_del_blocks (hash : Hash) (cached : List Block) (s : Store) :
    (cached.foldl (fun s block => uncheckedDel s hash block) s).blocks = s.blocks := by
  induction cached generalizing s with
  | nil => rfl
  | cons block cached ih => exact ih (uncheckedDel s hash block)

section Items

variable (env : Env) (fuel : Nat) (turn : Turn)

def Unforced (queue : List BlockProcessorItem) : Prop := ∀ item ∈ queue, item.force = false

theorem item_enters (s t : Store) (item : BlockProcessorItem) (queue : List BlockProcessorItem) (unforced : Unforced queue)
    (forced : forceItem env fuel turn.clock s item = .ok t) :
    Settles (processItem env fuel turn s item queue) (fun _ => True) fun out => KeepsBlocks t out.1 ∧ Unforced out.2.1 ∧
      ∀ result, processReceiveOne env fuel turn.clock turn.uninit t item.block = .ok result →
        result.2.code = .progress ∨ result.2.code = .old → blockExists out.1 (item.block.hash env) = true := by
  unfold processItem
  dsimp only
  refine settles_step forced ?_
  cases ran : processReceiveOne env fuel turn.clock turn.uninit t item.block with
  | error stopped => trivial
  | ok result =>
      have entered := settles_returned (receive_one_enters env turn.clock turn.uninit t item.block fuel) ran
      refine settles_step rfl ?_
      split
      · next good =>
          refine settles_bind (settles_any _) fun cached _ => ?_
          have same := unchecked_del_blocks (item.block.hash env) cached result.1
          refine ⟨fun h present => keeps_same _ _ same h (entered.1 h present), ?_, fun other _ _ => ?_⟩
          · intro other member
            rcases List.mem_append.mp member with back | member
            · obtain ⟨block, _, rfl⟩ := List.mem_map.mp (List.mem_reverse.mp back)
              rfl
            · exact unforced other member
          · exact keeps_same _ _ same _ (entered.2 good)
      · next bad =>
          refine ⟨entered.1, unforced, fun other same good => ?_⟩
          cases same
          exact absurd good bad

theorem unforced_enters (limit : Nat) (s : Store) (queue : List BlockProcessorItem) (unforced : Unforced queue) :
    Settles (processTransaction env fuel turn limit s queue) (fun _ => True) fun out => KeepsBlocks s out.1 ∧ Unforced out.2.1 := by
  induction limit generalizing s queue with
  | zero => exact ⟨fun _ => id, unforced⟩
  | succ limit ih =>
      cases queue with
      | nil => exact ⟨fun _ => id, unforced⟩
      | cons item queue =>
          have first := unforced item List.mem_cons_self
          have rest : Unforced queue := fun other member => unforced other (List.mem_cons_of_mem item member)
          have skip : forceItem env fuel turn.clock s item = .ok s := by simp [forceItem, first]
          rw [processTransaction]
          refine settles_bind (item_enters env fuel turn s s item queue rest skip) fun out entered => ?_
          refine settles_bind (ih out.1 out.2.1 entered.2.1) fun last ended => ?_
          exact ⟨fun h present => ended.1 h (entered.1 h present), ended.2⟩

theorem forced_enters (limit : Nat) (s : Store) (block : Block) (succeeds : Succeeds env fuel turn s block) :
    Settles (processTransaction env fuel turn (limit + 1) s [⟨block, true⟩]) (fun _ => True) fun out =>
      blockExists out.1 (block.hash env) = true ∧ Unforced out.2.1 := by
  rw [processTransaction]
  cases forced : forceItem env fuel turn.clock s ⟨block, true⟩ with
  | error stopped =>
      rw [processItem, forced]
      trivial
  | ok t =>
      cases ran : processReceiveOne env fuel turn.clock turn.uninit t block with
      | error stopped =>
          rw [processItem, forced, bind_ok, ran]
          trivial
      | ok result =>
          have none : Unforced [] := fun _ member => absurd member List.not_mem_nil
          refine settles_bind (item_enters env fuel turn s t ⟨block, true⟩ [] none forced) fun out entered => ?_
          have present := entered.2.2 result ran (succeeds t result forced ran)
          refine settles_bind (unforced_enters env fuel turn limit out.1 out.2.1 entered.2.1) fun last ended => ?_
          exact ⟨ended.1 _ present, ended.2⟩

end Items

section Racing

variable (env : Env) (s : Store) (w : Block)

structure Raced (state : Confirming) : Prop where
  block : ∀ other, state.acting = some other → other = w
  stage : (state.queue = [⟨w, true⟩] ∧ state.store.blocks = s.blocks) ∨
    (Unforced state.queue ∧ blockExists state.store (w.hash env) = true)
  seen : blockExists s (w.hash env) = true → false ∉ state.seen

theorem race_present (state : Confirming) (race : Raced env s w state) (present : blockExists s (w.hash env) = true) :
    blockExists state.store (w.hash env) = true := by
  rcases race.stage with ⟨_, same⟩ | ⟨_, stored⟩
  · exact keeps_same s _ same _ present
  · exact stored

theorem race_looked (state : Confirming) (race : Raced env s w state) (other : Block) (left : state.acting = some other)
    (present : blockExists s (w.hash env) = true) : false ∉ state.seen ++ [blockExists state.store (other.hash env)] := by
  rw [race.block other left, race_present env s w state race present]
  simpa using race.seen present

theorem race_step (state : Confirming) (action : ConfirmAction) (next : Confirming) (race : Raced env s w state)
    (met : Succeeding env state action) (taken : ConfirmStep env state action next) : Raced env s w next := by
  cases taken with
  | process fuel turn out s' busy returned flushed =>
      have last := settles_returned (flush_keeps_blocks turn out.1) flushed
      refine ⟨race.block, ?_, race.seen⟩
      rcases race.stage with ⟨queue, same⟩ | ⟨unforced, stored⟩
      · cases limit : turn.limit with
        | zero =>
            rw [limit, processTransaction] at returned
            obtain rfl := Except.ok.inj returned
            exact Or.inl ⟨queue, last.trans same⟩
        | succ count =>
            have succeeds := met (limit ▸ Nat.succ_pos count) ⟨w, true⟩ (by rw [queue]; rfl) rfl
            rw [limit, queue] at returned
            have entered := settles_returned (forced_enters env fuel turn count state.store w succeeds) returned
            exact Or.inr ⟨entered.2, keeps_same _ _ last _ entered.1⟩
      · have entered := settles_returned (unforced_enters env fuel turn turn.limit state.store state.queue unforced) returned
        exact Or.inr ⟨entered.2, keeps_same _ _ last _ (entered.1 _ stored)⟩
  | visit other wallet rest left found =>
      exact ⟨race.block, race.stage, race_looked env s w state race other left⟩
  | act other left done =>
      exact ⟨fun _ none => absurd none (by simp), race.stage, race_looked env s w state race other left⟩

theorem posted_replaced (wallets : List WalletStore) : posted s wallets [.force w, .confirm w] =
    ⟨s, [⟨w, true⟩], visited wallets w, some w, [], []⟩ := rfl

theorem task_first (wallets : List WalletStore) : ∃ state,
    Trail (ConfirmStep env) (Succeeding env) (posted s wallets [.force w, .confirm w]) state ∧
      state.seen = [blockExists s (w.hash env)] := by
  rw [posted_replaced]
  cases left : visited wallets w with
  | nil => exact ⟨_, .step _ ConfirmAction.act _ .start trivial (.act _ w rfl rfl), rfl⟩
  | cons wallet rest => exact ⟨_, .step _ ConfirmAction.visit _ .start trivial (.visit _ w wallet rest rfl rfl), rfl⟩

end Racing

theorem winner_in_ledger_iff (env : Env) (inactiveSupply : Amount) (s : Store) (election next : Election)
    (orders : Orders s election.votes) (actions : List ElectionAction)
    (returned : confirmOnce env inactiveSupply s election orders = .ok (next, actions))
    (replaced : next.lastWinner ≠ election.lastWinner) (wallets : List WalletStore) :
    (∀ state, Trail (ConfirmStep env) (Succeeding env) (posted s wallets actions) state → false ∉ state.seen) ↔
      blockExists s (next.lastWinner.hash env) = true := by
  obtain ⟨_, _, _, _, rfl⟩ := confirm_once_changed env inactiveSupply s election orders next actions returned replaced
  constructor
  · intro always
    obtain ⟨state, trail, seen⟩ := task_first env s next.lastWinner wallets
    have looked := always state trail
    rw [seen] at looked
    simpa using looked
  · intro present state trail
    have race := trail_invariant _ _ (Raced env s next.lastWinner) ?_
      (fun state action after race met taken => race_step env s next.lastWinner state action after race met taken) trail
    · exact race.seen present
    · exact ⟨fun _ same => (Option.some.inj same).symm, Or.inl ⟨rfl, rfl⟩, fun _ => List.not_mem_nil⟩

def splitElection (b : Block) : Election := ⟨votesAfter (sampleKey 9) sampleSend (splitCalls sampleSend b), sampleSend, false⟩

theorem split_overturned (s : Store) (run : replayAll sampleEnv 20 [sampleSend, sampleOpen] = some s) (b : Block)
    (different : b ≠ sampleSend) :
    ∃ orders, confirmOnce sampleEnv 0 s (splitElection b) orders =
      .ok (⟨votesAfter (sampleKey 9) sampleSend (splitCalls sampleSend b), b, true⟩, [.force b, .confirm b]) := by
  obtain ⟨t, run', replay, genesis, large, nobody, threshold⟩ := replay_checked sampleEnv 20 [sampleSend, sampleOpen] (fun s =>
    ledgerWeight s (genesisAccount sampleEnv.network) = 5 ∧ ledgerWeight s (sampleKey 3) = genesisAmount - 5 ∧
      ledgerWeight s (sampleKey 9) = 0 ∧
      (minimumThreshold sampleEnv 0 s).toNat < (genesisAmount - 5).toNat) (by decide +kernel)
  obtain rfl := Option.some.inj (run'.symm.trans run)
  obtain ⟨L, consistent, agrees⟩ := reachable_agrees (replay_reachable replay)
  have tally := fun block => split_tally t sampleSend b block nobody
  have own : blockTally t (splitElection b).votes b = (genesisAmount - 5).toNat := by
    rw [splitElection, tally, if_pos rfl, if_neg different.symm, large, Nat.add_zero]
  have largest : ∀ other, blockTally t (splitElection b).votes other ≤ blockTally t (splitElection b).votes b := by
    intro other
    rw [own, splitElection, tally, large, genesis]
    by_cases same : b = other
    · rw [if_pos same, if_neg (same ▸ different.symm), Nat.add_zero]
    · rw [if_neg same, Nat.zero_add]
      split <;> decide
  obtain ⟨orders, weight, first, value⟩ := any_largest_wins t (splitElection b).votes
    (weights_within consistent agrees _) b (by rw [own]; decide) largest
  have above : weight > minimumThreshold sampleEnv 0 t := by
    rw [gt_iff_lt, BitVec.lt_def, value, own]
    exact threshold
  exact ⟨orders, confirm_once_overturns sampleEnv 0 t (splitElection b) orders weight b rfl first different above⟩

-- The winner is the block of the ledger with other work.
theorem winner_in_ledger_sample : ∃ s orders next actions, Replay sampleEnv [sampleSend, sampleOpen] s ∧
    confirmOnce sampleEnv 0 s (splitElection workedSend) orders = .ok (next, actions) ∧ next.lastWinner ≠ sampleSend ∧
    ∀ state, Trail (ConfirmStep sampleEnv) (Succeeding sampleEnv) (posted s [] actions) state → false ∉ state.seen := by
  obtain ⟨s, run, replay, present⟩ := replay_checked sampleEnv 20 [sampleSend, sampleOpen] (fun s =>
    blockExists s (workedSend.hash sampleEnv) = true) (by decide +kernel)
  obtain ⟨orders, returned⟩ := split_overturned s run workedSend worked_differs
  exact ⟨s, orders, _, _, replay, returned, worked_differs,
    (winner_in_ledger_iff sampleEnv 0 s _ _ orders _ returned worked_differs []).mpr present⟩

def rivalWallet : WalletStore where
  entries := Table.empty.put (sampleKey 2) ⟨1#256 <<< 70, 0⟩
  password := Fan.start 0 []
  walletKeyMem := Fan.start 0 []

def rivalTurn : Turn := ⟨1, false, fun _ => 0, ⟨.progress, 0, 0, 0⟩, insertionOrder⟩

-- The winner is confirmed before it is forced: it is not in the ledger, and the wallet that holds its destination queues no receive.
theorem confirmed_before_forced : ∃ s orders next actions state, Replay sampleEnv [sampleSend, sampleOpen] s ∧
    confirmOnce sampleEnv 0 s (splitElection rivalSend) orders = .ok (next, actions) ∧ next.lastWinner = rivalSend ∧
    Trail (ConfirmStep sampleEnv) (Succeeding sampleEnv) (posted s [rivalWallet] actions) state ∧ state.queue = [] ∧
    state.acting = none ∧
    blockExists state.store (rivalSend.hash sampleEnv) = true ∧ state.seen = [false, false] ∧ state.receives = [] := by
  obtain ⟨s, run, replay, absent, unpaid, code, forced⟩ := replay_checked sampleEnv 20 [sampleSend, sampleOpen] (fun s =>
    blockExists s (rivalSend.hash sampleEnv) = false ∧ s.pending.get ⟨sampleKey 2, rivalSend.hash sampleEnv⟩ = none ∧
    (forceItem sampleEnv 20 rivalTurn.clock s ⟨rivalSend, true⟩ >>= fun t =>
      (processReceiveOne sampleEnv 20 rivalTurn.clock rivalTurn.uninit t rivalSend).map fun out => out.2.code) = .ok .progress ∧
    (processTransaction sampleEnv 20 rivalTurn 1 s [⟨rivalSend, true⟩]).map (fun out =>
      (out.2.1.length, blockExists out.1 (rivalSend.hash sampleEnv))) = .ok (0, true)) (by decide +kernel)
  have different : rivalSend ≠ sampleSend := by decide +kernel
  obtain ⟨orders, returned⟩ := split_overturned s run rivalSend different
  obtain ⟨out, processed, facts⟩ := map_returned forced
  obtain ⟨empty, present⟩ := Prod.mk.inj facts
  have succeeds : Succeeds sampleEnv 20 rivalTurn s rivalSend := by
    intro t result moved ran
    rw [moved, bind_ok, ran] at code
    exact Or.inl (Except.ok.inj code)
  have unqueued : visitWallet sampleEnv s rivalWallet rivalSend = [] := by
    have held : rivalWallet.exists (sampleKey 2) = true := by decide +kernel
    change (if rivalWallet.exists (sampleKey 2) = true then match s.pending.get ⟨sampleKey 2, rivalSend.hash sampleEnv⟩ with
      | some pending => [(rivalWallet.representative, pending.amount)]
      | none => [] else []) = []
    rw [if_pos held, unpaid]
  have path : Trail (ConfirmStep sampleEnv) (Succeeding sampleEnv) (posted s [rivalWallet] [.force rivalSend, .confirm rivalSend])
      ⟨s, [⟨rivalSend, true⟩], [rivalWallet], some rivalSend, [], []⟩ := .start
  have path := path.step _ ConfirmAction.visit _ trivial (.visit _ rivalSend rivalWallet [] rfl rfl)
  have path := path.step _ ConfirmAction.act _ trivial (.act _ rivalSend rfl rfl)
  have path := path.step _ (ConfirmAction.process 20 rivalTurn) _ (fun _ item first _ => Option.some.inj first ▸ succeeds)
    (.process _ 20 rivalTurn out out.1 (List.cons_ne_nil _ _) processed rfl)
  refine ⟨s, orders, _, _, _, replay, returned, rfl, path, List.length_eq_zero_iff.mp empty, rfl, present, ?_, ?_⟩
  · rw [absent]
    rfl
  · rw [unqueued]
    rfl

end Rai
