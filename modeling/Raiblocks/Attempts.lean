import Raiblocks.PullClient
import Raiblocks.Kit.Runs

set_option autoImplicit false

namespace Rai

open Kit

-- Where `bootstrap_attempt::run` is once the frontiers are there.
inductive AttemptPhase where
  | pulling
  | flushing
  | pushing
deriving DecidableEq, Repr

-- `bootstrap_attempt` as its threads share it. `fading` are the clients whose destructor has lowered `pulling` and has not
-- got to `requeue_pull` yet, `added` the calls of `block_processor.add`. `idle` counts the connections in the pool.
structure BootstrapAttempt where
  pulls : List PullInfo
  idle : Nat
  -- An `atomic<unsigned>` that counts the clients below; each holds a connection of its own, so no run wraps it.
  pulling : Nat
  clients : List PullClient
  fading : List PullClient
  frontierRequest : Bool
  stopped : Bool
  phase : AttemptPhase
  added : List Block

-- What a thread does while it holds the mutex. `run` is the thread of the attempt, `pooled` a connection that comes to
-- the pool, and a client goes in two steps.
inductive AttemptAction where
  | run
  | pooled
  | received (index : Nat) (block : Block)
  | fade (index : Nat)
  | requeue (index : Nat)
  | frontierClosed
  | stop
deriving DecidableEq

namespace BootstrapAttempt

variable (attempt : BootstrapAttempt)

def stillPulling : Bool := !attempt.stopped && (!attempt.pulls.isEmpty || decide (0 < attempt.pulling))

-- The constructor of `bulk_pull_client`, then its `request`.
def request (pull : PullInfo) : BootstrapAttempt :=
  { attempt with clients := attempt.clients ++ [⟨pull, pull.head⟩], pulling := attempt.pulling + 1 }

-- Without a connection the thread waits, which leaves everything as it is.
def requestPull : BootstrapAttempt :=
  match attempt.idle, attempt.pulls with
  | idle + 1, pull :: rest => request { attempt with idle := idle, pulls := rest } pull
  | _, _ => attempt

-- One turn of the two loops. With no pulls in the queue the inner one waits.
def runStep : BootstrapAttempt :=
  match attempt.phase with
  | .pulling => if attempt.stillPulling then attempt.requestPull else { attempt with phase := .flushing }
  | .flushing => { attempt with phase := if attempt.stillPulling then .pulling else .pushing }
  | .pushing => attempt

def requeuePull (pull : PullInfo) : BootstrapAttempt :=
  let pull := { pull with attempts := pull.attempts + 1 }
  if pull.attempts < 4 then { attempt with pulls := pull :: attempt.pulls }
  else if pull.attempts = 4 then
    if attempt.frontierRequest then attempt.request { pull with attempts := pull.attempts + 1 } else attempt
  else attempt

-- `received_block`. The block goes to the block processor twice.
def received (env : Env) (index : Nat) (block : Block) : BootstrapAttempt :=
  match attempt.clients[index]? with
  | none => attempt
  | some client =>
      let expected := if block.hash env = client.expected then block.previous else client.expected
      { attempt with
        clients := attempt.clients.set index { client with expected := expected }, added := attempt.added ++ [block, block] }

-- `~bulk_pull_client`: first the counter, under the mutex, and only then the part that is missing.
def fade (index : Nat) : BootstrapAttempt :=
  match attempt.clients[index]? with
  | none => attempt
  | some client =>
      { attempt with clients := attempt.clients.eraseIdx index, fading := attempt.fading ++ [client], pulling := attempt.pulling - 1 }

def requeue (index : Nat) : BootstrapAttempt :=
  match attempt.fading[index]? with
  | none => attempt
  | some client =>
      let attempt := { attempt with fading := attempt.fading.eraseIdx index }
      if client.expected ≠ client.pull.end then attempt.requeuePull (pullInfo client.pull.account client.expected client.pull.end)
      else attempt

def step (env : Env) : AttemptAction → BootstrapAttempt
  | .run => attempt.runStep
  | .pooled => { attempt with idle := attempt.idle + 1 }
  | .received index block => attempt.received env index block
  | .fade index => attempt.fade index
  | .requeue index => attempt.requeue index
  | .frontierClosed => { attempt with frontierRequest := false }
  | .stop => { attempt with stopped := true }

def begin (pulls : List PullInfo) (idle : Nat) : BootstrapAttempt := ⟨pulls, idle, 0, [], [], true, false, .pulling, []⟩

def runs (env : Env) (actions : List AttemptAction) : BootstrapAttempt :=
  actions.foldl (fun attempt action => attempt.step env action) attempt

end BootstrapAttempt

-- What is left of a pull, without the attempts.
def PullInfo.rest (pull : PullInfo) : PullInfo := pullInfo pull.account pull.head pull.end

def PullClient.rest (client : PullClient) : PullInfo := pullInfo client.pull.account client.expected client.pull.end

def BootstrapAttempt.outstanding (attempt : BootstrapAttempt) : List PullInfo :=
  attempt.pulls.map PullInfo.rest ++ attempt.clients.map PullClient.rest ++ attempt.fading.map PullClient.rest

-- The blocks from the head of the pull down to `x` have been handed to the block processor.
def Fetched (env : Env) (added : List Block) (pull : PullInfo) (x : Hash) : Prop :=
  ∃ chain, HashLinked env pull.head chain x ∧ ∀ block ∈ chain, block ∈ added

-- Nobody drops a pull: it is complete, or what is left of it is with somebody.
def Pursued (env : Env) (attempt : BootstrapAttempt) (pull : PullInfo) : Prop :=
  Fetched env attempt.added pull pull.end ∨
    ∃ x, Fetched env attempt.added pull x ∧ pullInfo pull.account x pull.end ∈ attempt.outstanding

-- What a step can do to what is outstanding: leave it, end it where it has nothing more to fetch, or bring it one block down.
-- The counter is the number of the clients that are alive.
structure Passes (env : Env) (attempt next : BootstrapAttempt) : Prop where
  counted : attempt.pulling = attempt.clients.length → next.pulling = next.clients.length
  added : ∀ block ∈ attempt.added, block ∈ next.added
  outstanding : ∀ rest ∈ attempt.outstanding, rest ∈ next.outstanding ∨ rest.head = rest.end ∨
    ∃ block ∈ next.added, block.hash env = rest.head ∧ { rest with head := block.previous } ∈ next.outstanding

section Steps

open BootstrapAttempt

variable {env : Env} {attempt : BootstrapAttempt}

theorem fetched_more (added more : List Block) (pull : PullInfo) (x : Hash) (all : ∀ block ∈ added, block ∈ more)
    (fetched : Fetched env added pull x) : Fetched env more pull x := by
  obtain ⟨chain, linked, inside⟩ := fetched
  exact ⟨chain, linked, fun block member => all block (inside block member)⟩

theorem pursued_passes (next : BootstrapAttempt) (passes : Passes env attempt next) (pull : PullInfo)
    (pursued : Pursued env attempt pull) :
    Pursued env next pull := by
  obtain done | ⟨x, far, open_⟩ := pursued
  · exact Or.inl (fetched_more _ _ pull _ passes.added done)
  have far := fetched_more _ _ pull x passes.added far
  obtain kept | ended | ⟨block, member, hashed, open_⟩ := passes.outstanding _ open_
  · exact Or.inr ⟨x, far, kept⟩
  · have met : x = pull.end := ended
    exact Or.inl (met ▸ far)
  · obtain ⟨chain, linked, inside⟩ := far
    have hashed : block.hash env = x := hashed
    refine Or.inr ⟨block.previous, ⟨chain ++ [block], linked_snoc env pull.head chain block (hashed ▸ linked), ?_⟩, open_⟩
    intro other listed
    obtain old | new := List.mem_append.mp listed
    · exact inside other old
    · exact List.mem_singleton.mp new ▸ member

theorem passes_perm (next : BootstrapAttempt) (counted : attempt.pulling = attempt.clients.length → next.pulling = next.clients.length)
    (added : next.added = attempt.added) (same : attempt.outstanding.Perm next.outstanding) : Passes env attempt next :=
  ⟨counted, fun _ member => added ▸ member, fun _ member => Or.inl (same.mem_iff.mp member)⟩

theorem taken_perm (clients : List PullClient) (index : Nat) (client : PullClient) (found : clients[index]? = some client) :
    (clients.map PullClient.rest).Perm (client.rest :: (clients.eraseIdx index).map PullClient.rest) := by
  obtain ⟨within, rfl⟩ := List.getElem?_eq_some_iff.mp found
  exact (List.getElem_cons_eraseIdx_perm within).symm.map _

-- The first pull of the queue becomes a client.
theorem passes_request_pull : Passes env attempt attempt.requestPull := by
  unfold requestPull
  split
  · next idle pull rest _ queue =>
      refine passes_perm _ (fun counted => by simp [request, counted]) rfl ?_
      rw [List.perm_iff_count]
      intro other
      have same : PullClient.rest ⟨pull, pull.head⟩ = pull.rest := rfl
      simp only [outstanding, request, queue, List.map_append, List.map_cons, List.map_nil, same, List.count_append,
        List.count_cons, List.count_nil]
      omega
  · exact passes_perm _ id rfl (.refl _)

theorem passes_run_step : Passes env attempt attempt.runStep := by
  unfold runStep
  split
  · split
    · exact passes_request_pull
    · exact passes_perm _ id rfl (.refl _)
  · exact passes_perm _ id rfl (.refl _)
  · exact passes_perm _ id rfl (.refl _)

theorem passes_received (index : Nat) (block : Block) : Passes env attempt (attempt.received env index block) := by
  unfold received
  split
  · exact passes_perm _ id rfl (.refl _)
  · next client found =>
      obtain ⟨within, _⟩ := List.getElem?_eq_some_iff.mp found
      have after := (List.set_perm_cons_eraseIdx within
        { client with expected := if block.hash env = client.expected then block.previous else client.expected }).map PullClient.rest
      refine ⟨fun counted => by rwa [List.length_set], fun _ member => List.mem_append_left _ member, fun rest member => ?_⟩
      simp only [outstanding, List.mem_append, after.mem_iff, (taken_perm _ index client found).mem_iff, List.map_cons,
        List.mem_cons] at member ⊢
      obtain (queued | rfl | stays) | last := member
      · exact Or.inl (Or.inl (Or.inl queued))
      · -- The client that reads: it goes one block down, or waits on.
        by_cases awaited : block.hash env = client.expected
        · exact Or.inr (Or.inr ⟨block, Or.inr (Or.inl rfl), awaited, Or.inl (Or.inr (Or.inl (by rw [if_pos awaited]; rfl)))⟩)
        · exact Or.inl (Or.inl (Or.inr (Or.inl (by rw [if_neg awaited]))))
      · exact Or.inl (Or.inl (Or.inr (Or.inr stays)))
      · exact Or.inl (Or.inr last)

theorem passes_fade (index : Nat) : Passes env attempt (attempt.fade index) := by
  unfold fade
  split
  · exact passes_perm _ id rfl (.refl _)
  · next client found =>
      obtain ⟨within, _⟩ := List.getElem?_eq_some_iff.mp found
      refine passes_perm _ (fun counted => by rw [List.length_eraseIdx_of_lt within, ← counted]) rfl ?_
      rw [List.perm_iff_count]
      intro rest
      have taken := (taken_perm _ index client found).count_eq rest
      simp only [outstanding, List.map_append, List.map_cons, List.map_nil, List.count_append, List.count_cons,
        List.count_nil] at taken ⊢
      omega

-- The client made its pull anew, so there are always attempts left.
theorem requeue_pull_queues (account : Account) (head stop : Hash) :
    attempt.requeuePull (pullInfo account head stop) = { attempt with pulls := ⟨account, head, stop, 1⟩ :: attempt.pulls } := rfl

theorem passes_requeue (index : Nat) : Passes env attempt (attempt.requeue index) := by
  unfold requeue
  split
  · exact passes_perm _ id rfl (.refl _)
  · next client found =>
      have taken := taken_perm _ index client found
      dsimp only
      split
      · rw [requeue_pull_queues]
        refine passes_perm _ id rfl ?_
        have same : PullInfo.rest ⟨client.pull.account, client.expected, client.pull.end, 1⟩ = client.rest := rfl
        rw [outstanding, outstanding, List.map_cons, same, List.cons_append, List.cons_append]
        exact (taken.append_left _).trans List.perm_middle
      · next ended =>
          refine ⟨id, fun _ member => member, fun rest member => ?_⟩
          rw [outstanding, List.mem_append, taken.mem_iff, List.mem_cons] at member
          obtain queued | rfl | stays := member
          · exact Or.inl (List.mem_append_left _ queued)
          · exact Or.inr (Or.inl (not_not.mp ended))
          · exact Or.inl (List.mem_append_right _ stays)

theorem passes_step (action : AttemptAction) : Passes env attempt (attempt.step env action) := by
  cases action with
  | run => exact passes_run_step
  | pooled => exact passes_perm _ id rfl (.refl _)
  | received index block => exact passes_received index block
  | fade index => exact passes_fade index
  | requeue index => exact passes_requeue index
  | frontierClosed => exact passes_perm _ id rfl (.refl _)
  | stop => exact passes_perm _ id rfl (.refl _)

theorem run_pursues (actions : List AttemptAction) (pulls : List PullInfo) (counted : attempt.pulling = attempt.clients.length)
    (pursued : ∀ pull ∈ pulls, Pursued env attempt pull) :
    (attempt.runs env actions).pulling = (attempt.runs env actions).clients.length ∧
      ∀ pull ∈ pulls, Pursued env (attempt.runs env actions) pull := by
  induction actions generalizing attempt with
  | nil => exact ⟨counted, pursued⟩
  | cons action actions ih =>
      have passes := @passes_step env attempt action
      exact ih (passes.counted counted) fun pull member => pursued_passes _ passes pull (pursued pull member)

end Steps

section Loops

open BootstrapAttempt

variable {env : Env} {pulls : List PullInfo} {idle : Nat} {actions : List AttemptAction} {attempt : BootstrapAttempt}
  (ran : (BootstrapAttempt.begin pulls idle).runs env actions = attempt) (last : attempt.phase = .flushing)
  (left : (attempt.step env .run).phase = .pushing) (running : attempt.stopped = false)
include ran last left running

-- The loops end with an empty queue and no client. What is left of a pull is then with a client whose destructor has
-- lowered the counter and has not queued it yet.
theorem loops_left (pull : PullInfo) (member : pull ∈ pulls) : Fetched env attempt.added pull pull.end ∨
    ∃ x, Fetched env attempt.added pull x ∧ ∃ client ∈ attempt.fading, client.rest = pullInfo pull.account x pull.end := by
  have begun : ∀ pull ∈ pulls, Pursued env (BootstrapAttempt.begin pulls idle) pull := fun pull member =>
    Or.inr ⟨pull.head, ⟨[], .last _, fun _ none => absurd none List.not_mem_nil⟩,
      List.mem_append_left _ (List.mem_append_left _ (List.mem_map_of_mem member))⟩
  obtain ⟨counted, pursued⟩ := run_pursues actions pulls rfl begun
  rw [ran] at counted pursued
  simp only [step, runStep, last] at left
  have ended : attempt.stillPulling = false := by
    by_contra pulling
    rw [if_pos (by simpa using pulling)] at left
    cases left
  simp only [stillPulling, running, Bool.not_false, Bool.true_and, Bool.or_eq_false_iff, Bool.not_eq_false', List.isEmpty_iff,
    decide_eq_false_iff_not, Nat.not_lt, Nat.le_zero] at ended
  have nobody : attempt.clients = [] := List.length_eq_zero_iff.mp (counted.symm.trans ended.2)
  refine (pursued pull member).imp_right fun ⟨x, far, open_⟩ => ⟨x, far, ?_⟩
  rw [outstanding, ended.1, nobody] at open_
  exact List.mem_map.mp open_

end Loops

theorem pull_phase_complete (env : Env) (pulls : List PullInfo) (idle : Nat) (actions : List AttemptAction) (attempt : BootstrapAttempt)
    (ran : (BootstrapAttempt.begin pulls idle).runs env actions = attempt) (last : attempt.phase = .flushing)
    (left : (attempt.step env .run).phase = .pushing) (running : attempt.stopped = false) (pull : PullInfo) (member : pull ∈ pulls) :
    Fetched env attempt.added pull pull.end ∨
      ∃ client ∈ attempt.fading, client.pull.account = pull.account ∧ client.pull.end = pull.end ∧
      Fetched env attempt.added pull client.expected := by
  refine (loops_left ran last left running pull member).imp_right ?_
  rintro ⟨x, far, client, fades, same⟩
  obtain ⟨account, head, stop⟩ : client.pull.account = pull.account ∧ client.expected = x ∧ client.pull.end = pull.end := by
    simpa [PullClient.rest, pullInfo] using same
  exact ⟨client, fades, account, stop, head ▸ far⟩

-- One peer closes the connection and the next one answers.
def sampleActions (block : Block) : List AttemptAction :=
  [.run, .fade 0, .requeue 0, .pooled, .run, .received 0 block, .fade 0, .requeue 0, .run]

theorem pull_phase_complete_sample :
    let block : Block := ⟨.changeBlock 9 4, 5, 6⟩
    let pull := pullInfo 7 (block.hash sampleEnv) 9
    let attempt := (BootstrapAttempt.begin [pull] 1).runs sampleEnv (sampleActions block)
    attempt.fading = [] ∧ Fetched sampleEnv attempt.added pull pull.end := by
  intro block pull attempt
  have gone : attempt.fading = [] := List.isEmpty_iff.mp (by decide +kernel)
  obtain fetched | ⟨client, fades, _⟩ := pull_phase_complete sampleEnv [pull] 1 (sampleActions block) attempt rfl (by decide +kernel)
    (by decide +kernel) (by decide +kernel) pull List.mem_cons_self
  · exact ⟨gone, fetched⟩
  · rw [gone] at fades
    cases fades

-- The loops end while the client is between the two halves of its destructor, and its pull stays in the queue.
example :
    let attempt := (BootstrapAttempt.begin [pullInfo 7 8 9] 1).runs sampleEnv [.run, .fade 0, .run, .run, .requeue 0]
    attempt.phase = .pushing ∧ attempt.stopped = false ∧ attempt.pulls = [⟨7, 8, 9, 1⟩] := by decide

end Rai
