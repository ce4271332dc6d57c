import Raiblocks.Bulk

set_option autoImplicit false

namespace Rai

open Kit

-- `pull_info`. Its constructor starts with no attempts.
structure PullInfo where
  account : Account
  head : Hash
  «end» : Hash
  attempts : Nat
deriving DecidableEq, Repr

def pullInfo (account : Account) (head : Hash) («end» : Hash) : PullInfo := ⟨account, head, «end», 0⟩

-- `bulk_pull_client`: the pull and the hash of the block that should come next.
structure PullClient where
  pull : PullInfo
  expected : Hash

-- `bootstrap_attempt`, with the clients that are alive, whether the connection of the frontier request is, and the
-- bulk_pull requests so far.
structure Attempt where
  pulls : List PullInfo
  clients : List PullClient
  frontierRequest : Bool
  requested : List PullInfo

def landing : Account := 0x059F68AAB29DE0D3A27443625C7EA9CDDB6517A8B76FE37727EF6A4D76832AD5
def faucet : Account := 0x8E319CE6F3025E5B2DF66DA7AB1467FE48F1679C13DD43BFDB29FA2E9FC40D3B
def accountOne : Account := 0x6B31E80CABDD2FEE6F54A7BDBF91B666010418F4438EF0B48168F93CD79DBC85
def accountTwo : Account := 0xFD6EE9E0E107A6A8584DB94A3F154799DD5C2A7D6ABED0889DA3B837B0E61663

def addPull (network : Network) (pulls : List PullInfo) (pull : PullInfo) : List PullInfo :=
  if pull.account ≠ genesisAccount network ∧ pull.account ≠ landing ∧ pull.account ≠ faucet ∧ pull.account ≠ accountOne ∧
      pull.account ≠ accountTwo then
    pulls ++ [pull]
  else pull :: pulls

namespace Attempt

def start (frontierRequest : Bool) : Attempt := ⟨[], [], frontierRequest, []⟩

-- A new client sends its request and expects the head.
def request (attempt : Attempt) (pull : PullInfo) : Attempt :=
  { attempt with clients := attempt.clients ++ [⟨pull, pull.head⟩], requested := attempt.requested ++ [pull] }

def requestPull (attempt : Attempt) : Attempt :=
  match attempt.pulls with
  | [] => attempt
  | pull :: rest => request { attempt with pulls := rest } pull

def requeuePull (attempt : Attempt) (pull : PullInfo) : Attempt :=
  let pull := { pull with attempts := pull.attempts + 1 }
  if pull.attempts < 4 then { attempt with pulls := pull :: attempt.pulls }
  else if pull.attempts = 4 then
    if attempt.frontierRequest then attempt.request { pull with attempts := pull.attempts + 1 } else attempt
  else attempt

def received (env : Env) (attempt : Attempt) (index : Nat) (block : Block) : Attempt :=
  match attempt.clients[index]? with
  | none => attempt
  | some client =>
      let client := { client with expected := if block.hash env = client.expected then block.previous else client.expected }
      { attempt with clients := attempt.clients.set index client }

-- `~bulk_pull_client`, which makes a new `pull_info` of the part that is missing.
def destroyed (attempt : Attempt) (index : Nat) : Attempt :=
  match attempt.clients[index]? with
  | none => attempt
  | some client =>
      let attempt := { attempt with clients := attempt.clients.eraseIdx index }
      if client.expected ≠ client.pull.end then attempt.requeuePull (pullInfo client.pull.account client.expected client.pull.end)
      else attempt

end Attempt

inductive AttemptEvent where
  | addPull (pull : PullInfo)
  | requestPull
  | received (index : Nat) (block : Block)
  | destroyed (index : Nat)
  | frontierClosed
deriving DecidableEq, Repr

namespace Attempt

variable (env : Env)

def step (attempt : Attempt) : AttemptEvent → Attempt
  | .addPull pull => { attempt with pulls := Rai.addPull env.network attempt.pulls pull }
  | .requestPull => attempt.requestPull
  | .received index block => attempt.received env index block
  | .destroyed index => attempt.destroyed index
  | .frontierClosed => { attempt with frontierRequest := false }

def run (attempt : Attempt) (events : List AttemptEvent) : Attempt := events.foldl (step env) attempt

def Progress (account : Account) (attempt : Attempt) : AttemptEvent → Prop
  | .received index block => ∃ client, attempt.clients[index]? = some client ∧ client.pull.account = account ∧
    block.hash env = client.expected
  | _ => False

def NoProgress (account : Account) : Attempt → List AttemptEvent → Prop
  | _, [] => True
  | attempt, event :: events => ¬ Progress env account attempt event ∧ NoProgress account (step env attempt event) events

end Attempt

def AttemptEvent.adds (account : Account) : AttemptEvent → Bool
  | .addPull pull => pull.account = account
  | _ => false

-- However an attempt goes in which the pull is added once and the account makes no progress, there are at most five
-- requests for the account.
def RetriesBounded (env : Env) (pull : PullInfo) : Prop :=
  ∀ alive events, events.filter (AttemptEvent.adds pull.account) = [.addPull pull] →
    Attempt.NoProgress env pull.account (Attempt.start alive) events →
    ((Attempt.start alive).run env events).requested.countP (fun request => request.account = pull.account) ≤ 5

section Retries

variable {env : Env} {account : Account}

-- The pulls of an account whose head is already its end are requested as often as they are added.
structure Spent (account : Account) (added : Nat) (attempt : Attempt) : Prop where
  queued : ∀ pull ∈ attempt.pulls, pull.account = account → pull.head = pull.end
  reading : ∀ client ∈ attempt.clients, client.pull.account = account → client.expected = client.pull.end
  few : attempt.pulls.countP (fun pull => pull.account = account) + attempt.requested.countP
    (fun pull => pull.account = account) ≤ added

theorem add_pull_perm (network : Network) (pulls : List PullInfo) (pull : PullInfo) :
    (addPull network pulls pull).Perm (pull :: pulls) := by
  unfold addPull
  split
  · exact List.perm_append_singleton pull pulls
  · exact List.Perm.refl _

theorem spent_add (added : Nat) (attempt : Attempt) (spent : Spent account added attempt) (pull : PullInfo)
    (ended : pull.account = account → pull.head = pull.end) :
    Spent account (added + if pull.account = account then 1 else 0) (attempt.step env (.addPull pull)) := by
  have perm := add_pull_perm env.network attempt.pulls pull
  refine ⟨fun other member => ?_, spent.reading, ?_⟩
  · obtain rfl | old := List.mem_cons.mp (perm.mem_iff.mp member)
    · exact ended
    · exact spent.queued other old
  · have few := spent.few
    change (addPull env.network attempt.pulls pull).countP _ + attempt.requested.countP _ ≤ _
    rw [perm.countP_eq, List.countP_cons]
    simp only [decide_eq_true_eq]
    omega

theorem spent_request (added : Nat) (attempt : Attempt) (pull : PullInfo)
    (spent : Spent account added { attempt with pulls := pull :: attempt.pulls }) :
    Spent account added (attempt.request pull) := by
  obtain ⟨queued, reading, few⟩ := spent
  obtain ⟨first, others⟩ := List.forall_mem_cons.mp queued
  refine ⟨others, fun client member own => ?_, ?_⟩
  · obtain old | new := List.mem_append.mp member
    · exact reading client old own
    · rw [List.mem_singleton.mp new] at own ⊢
      exact first own
  · change attempt.pulls.countP _ + (attempt.requested ++ [pull]).countP _ ≤ _
    rw [List.countP_append, List.countP_singleton]
    change (pull :: attempt.pulls).countP _ + attempt.requested.countP _ ≤ _ at few
    rw [List.countP_cons] at few
    omega

theorem spent_request_pull (added : Nat) (attempt : Attempt) (spent : Spent account added attempt) :
    Spent account added attempt.requestPull := by
  unfold Attempt.requestPull
  split
  · exact spent
  · next pull rest queue =>
      refine spent_request added { attempt with pulls := rest } pull ?_
      rw [← queue]
      exact spent

theorem spent_received (added : Nat) (attempt : Attempt) (spent : Spent account added attempt) (index : Nat) (block : Block)
    (still : ¬ attempt.Progress env account (.received index block)) : Spent account added (attempt.received env index block) := by
  unfold Attempt.received
  split
  · exact spent
  · next client found =>
      refine ⟨spent.queued, fun other member own => ?_, spent.few⟩
      obtain old | rfl := List.mem_or_eq_of_mem_set member
      · exact spent.reading other old own
      · have unexpected : block.hash env ≠ client.expected := fun expected => still ⟨client, found, own, expected⟩
        simp only [if_neg unexpected]
        exact spent.reading client (List.mem_of_getElem? found) own

theorem spent_requeue_other (added : Nat) (attempt : Attempt) (spent : Spent account added attempt) (pull : PullInfo)
    (other : pull.account ≠ account) :
    Spent account added (attempt.requeuePull pull) := by
  have queue : ∀ attempts, Spent account added { attempt with pulls := { pull with attempts := attempts } :: attempt.pulls } := by
    intro attempts
    refine ⟨List.forall_mem_cons.mpr ⟨fun own => absurd own other, spent.queued⟩, spent.reading, ?_⟩
    rw [List.countP_cons_of_neg (by simpa using other)]
    exact spent.few
  unfold Attempt.requeuePull
  dsimp only
  split
  · exact queue _
  · split
    · split
      · exact spent_request added attempt _ (queue _)
      · exact spent
    · exact spent

theorem spent_destroyed (added : Nat) (attempt : Attempt) (spent : Spent account added attempt) (index : Nat) :
    Spent account added (attempt.destroyed index) := by
  unfold Attempt.destroyed
  split
  · exact spent
  · next client found =>
      have left : Spent account added { attempt with clients := attempt.clients.eraseIdx index } :=
        ⟨spent.queued, fun other member => spent.reading other (List.mem_of_mem_eraseIdx member), spent.few⟩
      dsimp only
      split
      · next short =>
          refine spent_requeue_other added _ left _ fun own => ?_
          exact short (spent.reading client (List.mem_of_getElem? found) own)
      · exact left

theorem spent_step (added : Nat) (attempt : Attempt) (spent : Spent account added attempt) (event : AttemptEvent)
    (ended : ∀ pull, event = .addPull pull → pull.account = account → pull.head = pull.end)
    (still : ¬ attempt.Progress env account event) :
    Spent account (added + if event.adds account then 1 else 0) (attempt.step env event) := by
  cases event with
  | addPull pull =>
      have after := @spent_add env account added attempt spent pull (ended pull rfl)
      simpa [AttemptEvent.adds] using after
  | requestPull => exact spent_request_pull added attempt spent
  | received index block => exact spent_received added attempt spent index block still
  | destroyed index => exact spent_destroyed added attempt spent index
  | frontierClosed => exact ⟨spent.queued, spent.reading, spent.few⟩

theorem spent_run (events : List AttemptEvent) (added : Nat) (attempt : Attempt) (spent : Spent account added attempt)
    (ended : ∀ pull, .addPull pull ∈ events → pull.account = account → pull.head = pull.end)
    (still : attempt.NoProgress env account events) :
    Spent account (added + (events.filter (AttemptEvent.adds account)).length) (attempt.run env events) := by
  induction events generalizing added attempt with
  | nil => exact spent
  | cons event events ih =>
      have first := spent_step added attempt spent event (fun pull same => ended pull (same ▸ List.mem_cons_self)) still.1
      have rest := ih _ _ first (fun pull member => ended pull (List.mem_cons_of_mem event member)) still.2
      have total : added + ((event :: events).filter (AttemptEvent.adds account)).length =
          added + (if event.adds account then 1 else 0) + (events.filter (AttemptEvent.adds account)).length := by
        rw [List.filter_cons]
        split
        · rw [List.length_cons]
          omega
        · rfl
      rw [total]
      exact rest

theorem retry_round (alive : Bool) (head stop : Hash) (missing : head ≠ stop) (attempts : Nat) (requested : List PullInfo) :
    Attempt.run env ⟨[⟨account, head, stop, attempts⟩], [], alive, requested⟩ [.requestPull, .destroyed 0] =
      ⟨[⟨account, head, stop, 1⟩], [], alive, requested ++ [⟨account, head, stop, attempts⟩]⟩ := by
  simp [Attempt.run, Attempt.step, Attempt.requestPull, Attempt.request, Attempt.destroyed, Attempt.requeuePull, pullInfo, missing]

def retryRounds : Nat → List AttemptEvent
  | 0 => []
  | rounds + 1 => [.requestPull, .destroyed 0] ++ retryRounds rounds

theorem retry_rounds (alive : Bool) (head stop : Hash) (missing : head ≠ stop) (rounds attempts : Nat) (requested : List PullInfo) :
    (Attempt.run env ⟨[⟨account, head, stop, attempts⟩], [], alive, requested⟩ (retryRounds rounds)).requested.countP
      (fun request => request.account = account) = requested.countP (fun request => request.account = account) + rounds := by
  induction rounds generalizing attempts requested with
  | zero => rfl
  | succ rounds ih =>
      have round := @retry_round env account alive head stop missing attempts requested
      rw [retryRounds, Attempt.run, List.foldl_append]
      change (Attempt.run env (Attempt.run env _ _) _).requested.countP _ = _
      rw [round, ih, List.countP_append, List.countP_singleton]
      simp only [decide_true, if_true]
      omega

theorem retry_rounds_quiet (attempt : Attempt) (rounds : Nat) : attempt.NoProgress env account (retryRounds rounds) := by
  induction rounds generalizing attempt with
  | zero => trivial
  | succ rounds ih => exact ⟨id, id, ih _⟩

theorem retry_rounds_adds (rounds : Nat) : (retryRounds rounds).filter (AttemptEvent.adds account) = [] := by
  induction rounds with
  | zero => rfl
  | succ rounds ih => exact ih

end Retries

-- The bound on the attempts never applies: each time the client is destroyed the pull starts counting again.
theorem retries_bounded_iff (env : Env) (account : Account) (head stop : Hash) :
    RetriesBounded env (pullInfo account head stop) ↔ head = stop := by
  constructor
  · intro bounded
    by_contra missing
    have many := bounded true (.addPull (pullInfo account head stop) :: retryRounds 6)
      (by rw [List.filter_cons_of_pos (by simp [AttemptEvent.adds, pullInfo]), retry_rounds_adds]) ⟨id, retry_rounds_quiet _ 6⟩
    have queued : Attempt.step env (Attempt.start true) (.addPull (pullInfo account head stop)) =
      ⟨[⟨account, head, stop, 0⟩], [], true, []⟩ := by
      change Attempt.mk (addPull env.network [] (pullInfo account head stop)) [] true [] = _
      rw [List.perm_singleton.mp (add_pull_perm env.network [] (pullInfo account head stop))]
      rfl
    rw [Attempt.run, List.foldl_cons, queued] at many
    change (Attempt.run env _ (retryRounds 6)).requested.countP (fun request => request.account = account) ≤ 5 at many
    rw [retry_rounds true head stop missing 6 0 [], List.countP_nil] at many
    omega
  · rintro rfl alive events added still
    have ended : ∀ pull, AttemptEvent.addPull pull ∈ events → pull.account = account → pull.head = pull.end := by
      intro pull member own
      have listed : AttemptEvent.addPull pull ∈ events.filter (AttemptEvent.adds account) :=
        List.mem_filter.mpr ⟨member, by simpa [AttemptEvent.adds] using own⟩
      change events.filter (AttemptEvent.adds account) = _ at added
      rw [added, List.mem_singleton] at listed
      rw [AttemptEvent.addPull.inj listed]
      rfl
    have spent :=
      spent_run events 0 (Attempt.start alive) ⟨by simp [Attempt.start], by simp [Attempt.start], by simp [Attempt.start]⟩ ended still
    change events.filter (AttemptEvent.adds account) = _ at added
    rw [added] at spent
    have few := spent.few
    change ((Attempt.start alive).run env events).requested.countP (fun request => request.account = account) ≤ 5
    simp only [List.length_singleton] at few
    omega

-- Six peers that close the connection without an answer.
theorem pull_requested_six_times : ∃ events,
    events.filter (AttemptEvent.adds 7) = [.addPull (pullInfo 7 8 9)] ∧ Attempt.NoProgress sampleEnv 7 (Attempt.start true) events ∧
      ((Attempt.start true).run sampleEnv events).requested.countP (fun request => request.account = 7) = 6 := by
  refine ⟨.addPull (pullInfo 7 8 9) :: retryRounds 6, by decide, ⟨id, retry_rounds_quiet _ 6⟩, ?_⟩
  exact retry_rounds true 8 9 (by decide) 6 0 []

-- The reader of `bulk_pull_client` with `hard_stop`, which is looked at after each block. Without an ending it stopped there.
def pullBlocks (env : Env) (size : UInt8 × UInt8) (hardStop : List Block → Bool) :
    Nat → Buffer 200 → Bytes → Pull → Except Fault (Option Ending × Pull)
  | 0, _, _, _ => .error .fuel
  | fuel + 1, buffer, stream, pull => do
      match ← receiveBlock size buffer stream with
      | .ended ending _ => .ok (some ending, pull)
      | .block block buffer stream =>
          let pull := pull.accept env block
          if hardStop pull.received then .ok (none, pull) else pullBlocks env size hardStop fuel buffer stream pull

-- The flag is whether the connection goes back to the pool.
def bulkPull (env : Env) (size : UInt8 × UInt8) (hardStop : List Block → Bool) (pendingStop : Bool) (fuel : Nat) (buffer : Buffer 200)
    (info : PullInfo) (stream : Bytes) : Except Fault (Pull × Bool) := do
  let (ending, pull) ← pullBlocks env size hardStop fuel buffer stream ⟨[], info.head, []⟩
  .ok (pull, decide (ending = some .finished ∧ pendingStop = false ∧ pull.expected = info.end))

-- Each block has the hash that is asked for and names the next, down to the one that has not come.
inductive HashLinked (env : Env) : Hash → List Block → Hash → Prop where
  | last (h : Hash) : HashLinked env h [] h
  | next (block : Block) (rest : List Block) (stop : Hash) (linked : HashLinked env block.previous rest stop) :
      HashLinked env (block.hash env) (block :: rest) stop

def Closes (tail : Bytes) : Prop :=
  (∃ rest, tail = notABlock :: rest) ∨ tail = [] ∨ ∃ (kind : Kind) (cut : Bytes), tail = kind.byte :: cut ∧ cut.length < kind.readSize

def HandsOver (env : Env) (size : UInt8 × UInt8) (hardStop : List Block → Bool) (pendingStop : Bool)
    (buffer : Buffer 200) (info : PullInfo) (blocks : List Block) (tail : Bytes) : Prop :=
  ∃ pull pooled, Yields (fun fuel => bulkPull env size hardStop pendingStop fuel buffer info (blocks.flatMap serializeBlock ++ tail))
    (pull, pooled) ∧
    pull.received = blocks ∧ pull.added = pull.received ∧
    (pooled = true → ∃ chain, chain.Sublist pull.received ∧ HashLinked env info.head chain info.end)

section Reader

variable (env : Env) (size : UInt8 × UInt8) (hardStop : List Block → Bool)

theorem linked_snoc (h : Hash) (chain : List Block) (block : Block) (linked : HashLinked env h chain (block.hash env)) :
    HashLinked env h (chain ++ [block]) block.previous := by
  generalize same : block.hash env = stop at linked
  induction linked with
  | last h => exact same ▸ .next block [] _ (.last _)
  | next first rest stop _ ih => exact .next first (rest ++ [block]) _ (ih same)

theorem expected_linked (blocks : List Block) (head : Hash) (pull : Pull)
    (before : ∃ chain, chain.Sublist pull.received ∧ HashLinked env head chain pull.expected) :
    ∃ chain, chain.Sublist (blocks.foldl (Pull.accept env) pull).received ∧
    HashLinked env head chain (blocks.foldl (Pull.accept env) pull).expected := by
  induction blocks generalizing pull with
  | nil => exact before
  | cons block blocks ih =>
      apply ih
      obtain ⟨chain, inside, linked⟩ := before
      by_cases awaited : block.hash env = pull.expected
      · refine ⟨chain ++ [block], inside.append (List.Sublist.refl _), ?_⟩
        rw [Pull.accept, if_pos awaited]
        exact linked_snoc env head chain block (awaited ▸ linked)
      · refine ⟨chain, inside.trans (List.sublist_append_left _ _), ?_⟩
        rw [Pull.accept, if_neg awaited]
        exact linked

theorem pull_blocks_folded (fuel : Nat) (buffer : Buffer 200) (stream : Bytes) (pull : Pull) (out : Option Ending × Pull)
    (returned : pullBlocks env size hardStop fuel buffer stream pull = .ok out) : ∃ taken :
    List Block, out.2 = taken.foldl (Pull.accept env) pull := by
  induction fuel generalizing buffer stream pull with
  | zero => cases returned
  | succ fuel ih =>
      obtain ⟨round, received, _⟩ := receive_round size buffer (by decide) stream
      simp only [pullBlocks, received, bind_ok] at returned
      cases round with
      | ended ending left =>
          cases returned
          exact ⟨[], rfl⟩
      | block block filled rest =>
          dsimp only at returned
          split at returned
          · cases returned
            exact ⟨[block], rfl⟩
          · obtain ⟨taken, folded⟩ := ih filled rest (pull.accept env block) returned
            exact ⟨block :: taken, folded⟩

theorem pooled_linked (pendingStop : Bool) (fuel : Nat) (buffer : Buffer 200) (info : PullInfo) (stream : Bytes) (pull : Pull)
    (returned : bulkPull env size hardStop pendingStop fuel buffer info stream = .ok (pull, true)) :
    ∃ chain, chain.Sublist pull.received ∧ HashLinked env info.head chain info.end := by
  unfold bulkPull at returned
  obtain ⟨out, read, ended⟩ := bind_returned returned
  obtain ⟨taken, folded⟩ := pull_blocks_folded env size hardStop fuel buffer stream _ out read
  obtain ⟨rfl, pooled⟩ := Prod.mk.inj (Except.ok.inj ended)
  obtain ⟨chain, inside, linked⟩ := expected_linked env taken info.head ⟨[], info.head, []⟩ ⟨[], List.Sublist.refl _, .last _⟩
  rw [← folded] at inside linked
  exact ⟨chain, inside, (of_decide_eq_true pooled).2.2 ▸ linked⟩

theorem added_twice (blocks : List Block) (pull : Pull) :
    (blocks.foldl (Pull.accept env) pull).added.length = pull.added.length + 2 * blocks.length := by
  induction blocks generalizing pull with
  | nil => rfl
  | cons block blocks ih =>
      rw [List.foldl_cons, ih, Pull.accept, List.length_append, List.length_cons]
      simp only [List.length_cons, List.length_nil]
      omega

theorem receive_closed (buffer : Buffer 200) (tail : Bytes) (closes : Closes tail) :
    ∃ ending left, receiveBlock size buffer tail = .ok (.ended ending left) := by
  obtain ⟨rest, rfl⟩ | rfl | ⟨kind, cut, rfl, short⟩ := closes
  · exact ⟨_, _, receive_other size buffer (by decide) notABlock rest (by decide)⟩
  · exact ⟨_, _, receive_none size buffer (by decide)⟩
  · exact ⟨_, _, receive_cut size buffer (by decide) kind cut short⟩

theorem pull_blocks_taken (blocks : List Block) (tail : Bytes) (fits : ∀ block ∈ blocks, block.Fits ∧ block.Framed)
    (closes : Closes tail) (buffer : Buffer 200) (pull : Pull) :
    ∃ ending taken, taken <+: blocks ∧ (taken = [] → blocks = []) ∧
      ∀ fuel, blocks.length < fuel → pullBlocks env size hardStop fuel buffer (blocks.flatMap serializeBlock ++ tail) pull =
        .ok (ending, taken.foldl (Pull.accept env) pull) := by
  induction blocks generalizing buffer pull with
  | nil =>
      obtain ⟨ending, left, ended⟩ := receive_closed size buffer tail closes
      refine ⟨some ending, [], List.prefix_refl _, fun _ => rfl, fun fuel enough => ?_⟩
      obtain ⟨fuel, rfl⟩ := Nat.exists_eq_add_of_lt enough
      simp only [List.flatMap_nil, List.nil_append, pullBlocks, ended, bind_ok]
      rfl
  | cons block blocks ih =>
      obtain ⟨first, others⟩ := List.forall_mem_cons.mp fits
      obtain ⟨filled, round⟩ := receive_framed size buffer (by decide) block (blocks.flatMap serializeBlock ++ tail) first.1 first.2
      obtain ⟨ending, taken, inside, _, went⟩ := ih others filled (pull.accept env block)
      by_cases stop : hardStop (pull.accept env block).received = true
      · refine ⟨none, [block], List.cons_prefix_cons.mpr ⟨rfl, List.nil_prefix⟩, (fun none => by cases none), fun fuel enough => ?_⟩
        obtain ⟨fuel, rfl⟩ := Nat.exists_eq_add_of_lt enough
        simp only [List.flatMap_cons, List.append_assoc, pullBlocks, round, bind_ok, if_pos stop]
        rfl
      · refine ⟨ending, block :: taken, List.cons_prefix_cons.mpr ⟨rfl, inside⟩, (fun none => by cases none), fun fuel enough => ?_⟩
        obtain ⟨fuel, rfl⟩ := Nat.exists_eq_add_of_lt enough
        simp only [List.flatMap_cons, List.append_assoc, pullBlocks, round, bind_ok, if_neg stop, List.foldl_cons]
        exact went _ (by rw [List.length_cons]; omega)

end Reader

theorem legacy_framed (block : Block) (legacy : block.kind ≠ .sendBlockV2) : block.Fits ∧ block.Framed := by
  obtain ⟨hashables, signature, work⟩ := block
  cases hashables with
  | sendBlockV2 previous destination action => exact absurd rfl legacy
  | _ => exact ⟨trivial, trivial⟩

-- Every block that is received is added twice.
theorem hands_over_iff (env : Env) (size : UInt8 × UInt8) (hardStop : List Block → Bool) (pendingStop : Bool) (buffer : Buffer 200)
    (info : PullInfo) (blocks : List Block) (legacy : ∀ block ∈ blocks, block.kind ≠ .sendBlockV2) (tail : Bytes)
    (closes : Closes tail) :
    HandsOver env size hardStop pendingStop buffer info blocks tail ↔ blocks = [] := by
  obtain ⟨ending, taken, inside, some_taken, went⟩ := pull_blocks_taken env size hardStop blocks tail
    (fun block member => legacy_framed block (legacy block member)) closes buffer ⟨[], info.head, []⟩
  have yields : Yields (fun fuel => bulkPull env size hardStop pendingStop fuel buffer info (blocks.flatMap serializeBlock ++ tail))
      (taken.foldl (Pull.accept env) ⟨[], info.head, []⟩,
        decide (ending = some .finished ∧ pendingStop = false ∧
          (taken.foldl (Pull.accept env) ⟨[], info.head, []⟩).expected = info.end)) := by
    refine ⟨blocks.length + 1, fun fuel enough => ?_⟩
    simp only [bulkPull, went fuel enough, bind_ok]
  have log := received_fold (Pull.accept env) Pull.received (fun _ _ => rfl) taken ⟨[], info.head, []⟩
  have twice := added_twice env taken ⟨[], info.head, []⟩
  rw [List.nil_append] at log
  rw [List.length_nil, Nat.zero_add] at twice
  constructor
  · rintro ⟨pull, pooled, same, _, once, _⟩
    obtain ⟨rfl, _⟩ := Prod.mk.inj (yields_unique same yields)
    rw [once, log] at twice
    exact some_taken (List.length_eq_zero_iff.mp (by omega))
  · rintro rfl
    obtain rfl := List.prefix_nil.mp inside
    refine ⟨_, _, yields, rfl, rfl, fun pooled => ?_⟩
    obtain ⟨bound, same⟩ := yields
    rw [pooled] at same
    exact pooled_linked env size hardStop pendingStop bound buffer info _ _ (same bound le_rfl)

-- An empty answer hands over nothing, and the connection of a pull without blocks is used again.
theorem hands_over_nothing : HandsOver sampleEnv (0, 0) (fun _ => false) false (sampleBuffer 200) (pullInfo 7 8 8) [] [notABlock] :=
  (hands_over_iff sampleEnv (0, 0) (fun _ => false) false (sampleBuffer 200) (pullInfo 7 8 8) [] (by simp) [notABlock]
    (Or.inl ⟨[], rfl⟩)).mpr rfl

-- One block, and the processor gets it twice.
theorem pull_adds_twice :
    let block : Block := ⟨.changeBlock 3 4, 5, 6⟩
    ∃ pull, Yields (fun fuel => bulkPull sampleEnv (0, 0) (fun _ => false) false fuel (sampleBuffer 200) (pullInfo 7 8 9)
        ([block].flatMap serializeBlock ++ [notABlock])) (pull, false) ∧ pull.received = [block] ∧ pull.added = [block, block] := by
  intro block
  obtain ⟨filled, round⟩ := receive_framed (0, 0) (sampleBuffer 200) (by decide) block [notABlock] trivial trivial
  have last := receive_other (0, 0) filled (by decide) notABlock [] (by decide)
  refine ⟨Pull.accept sampleEnv ⟨[], 8, []⟩ block, ⟨2, fun fuel enough => ?_⟩, rfl, rfl⟩
  obtain ⟨fuel, rfl⟩ := Nat.exists_eq_add_of_le' enough
  have other : (Pull.accept sampleEnv ⟨[], 8, []⟩ block).expected ≠ 9 := by decide +kernel
  simp only [List.flatMap_cons, List.flatMap_nil, List.append_nil, bulkPull, pullBlocks, pullInfo, round, last, bind_ok,
    Bool.false_eq_true, if_false, other, and_false, decide_false]

end Rai
