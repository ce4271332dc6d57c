import Raiblocks.Messages
import Raiblocks.Kit.Runs

set_option autoImplicit false

namespace Rai

open Kit

-- A request names its root; its number among all requests stands for the callback it was given.
structure WorkRequest where
  root : Hash
  id : Nat
deriving DecidableEq, Repr

-- Where a thread is in `loop`: before the lock it waits for, at the head of the outer or the inner search loop, or behind
-- the search and before the lock.
inductive Place where
  | waiting
  | outer
  | inner (iteration : Nat)
  | locking
  | exited
deriving DecidableEq, Repr

-- The locals of `loop`. The hash state is given by the bytes taken in since it was initialised. `began` is not in the code:
-- how often the ticket had been raised when this search read it.
structure Worker where
  place : Place
  current : WorkRequest
  ticketL : BitVec 32
  work : Work
  output : BitVec 64
  hash : Bytes
  began : Nat

-- `work_pool`, with the requests so far, the callbacks called so far, what each cancel took away, and how often the ticket
-- was raised.
structure WorkPool (W : Type) where
  ticket : BitVec 32
  done : Bool
  pending : List WorkRequest
  workers : W → Worker
  requests : List Hash
  calls : List (Nat × Option Work)
  removed : List (Nat × Hash)
  raises : Nat

inductive WorkAction (W : Type) where
  | generate (root : Hash)
  | cancel (root : Hash)
  | stop
  | run (w : W) (random : Work)

namespace WorkPool

section Model

variable {W : Type} [DecidableEq W] (env : Env)

-- The locals are not initialised when the threads start.
def start (uninit : W → Work × BitVec 64) : WorkPool W where
  ticket := 0
  done := false
  pending := []
  workers := fun w => ⟨.waiting, ⟨0, 0⟩, 0, (uninit w).1, (uninit w).2, [], 0⟩
  requests := []
  calls := []
  removed := []
  raises := 0

def raiseTicket (pool : WorkPool W) : WorkPool W := { pool with ticket := pool.ticket + 1, raises := pool.raises + 1 }

def setWorker (pool : WorkPool W) (w : W) (worker : Worker) : WorkPool W :=
  { pool with workers := Function.update pool.workers w worker }

-- Without OpenCL.
def generate (pool : WorkPool W) (root : Hash) : Except Fault (WorkPool W) := do
  ensure (root ≠ 0)
  .ok { pool with pending := pool.pending ++ [⟨root, pool.requests.length⟩], requests := pool.requests ++ [root] }

def stopSearch (pool : WorkPool W) (root : Hash) : WorkPool W :=
  match pool.pending with
  | [] => pool
  | front :: _ => if front.root = root then pool.raiseTicket else pool

def cancel (pool : WorkPool W) (root : Hash) : WorkPool W :=
  let taken := pool.pending.filter fun request => request.root = root
  { pool.stopSearch root with
    pending := pool.pending.filter fun request => request.root ≠ root
    calls := pool.calls ++ taken.map fun request => (request.id, none)
    removed := pool.removed ++ taken.map fun request => (request.id, root) }

def stop (pool : WorkPool W) : WorkPool W := { pool with done := true }

def loopHead (pool : WorkPool W) (w : W) : WorkPool W :=
  match pool.pending with
  | [] => pool.setWorker w { pool.workers w with place := if pool.done = true then .exited else .waiting }
  | front :: _ =>
      pool.setWorker w
        { pool.workers w with place := .outer, current := front, ticketL := pool.ticket, output := 0, began := pool.raises }

def attempt (worker : Worker) (random : Work) (iteration : Nat) : Worker :=
  { worker with
    place := .inner iteration
    work := random
    output := env.blake2b64 (worker.hash ++ wordBytesLE 8 random ++ wordBytes 32 worker.current.root)
    hash := [] }

def searchOuter (pool : WorkPool W) (worker : Worker) : Worker :=
  { worker with
    place := if pool.ticket = worker.ticketL ∧ worker.output < publishThreshold env.network then .inner 256 else .locking }

def searchInner (worker : Worker) (random : Work) : Nat → Worker
  | 0 => { worker with place := .outer }
  | iteration + 1 =>
      if worker.output < publishThreshold env.network then attempt env worker random iteration
      else { worker with place := .outer }

def finish (pool : WorkPool W) (w : W) : Except Fault (WorkPool W) :=
  let worker := pool.workers w
  if pool.ticket = worker.ticketL then do
    ensure (publishThreshold env.network ≤ worker.output)
    ensure (workValue env worker.current.root worker.work = worker.output)
    let rest ← require pool.pending.tail?
    .ok { pool.raiseTicket with calls := pool.calls ++ [(worker.current.id, some worker.work)], pending := rest }
  else .ok pool

def run (pool : WorkPool W) (w : W) (random : Work) : Except Fault (WorkPool W) :=
  match (pool.workers w).place with
  | .waiting => .ok (pool.loopHead w)
  | .outer => .ok (pool.setWorker w (pool.searchOuter env (pool.workers w)))
  | .inner iteration => .ok (pool.setWorker w (searchInner env (pool.workers w) random iteration))
  | .locking => do
      let finished ← pool.finish env w
      .ok (finished.loopHead w)
  | .exited => .ok pool

def step (pool : WorkPool W) : WorkAction W → Except Fault (WorkPool W)
  | .generate root => pool.generate root
  | .cancel root => .ok (pool.cancel root)
  | .stop => .ok pool.stop
  | .run w random => pool.run env w random

-- A search that ends has seen fewer than 2^32 increments of the ticket.
def ShortSearch (pool : WorkPool W) : WorkAction W → Prop
  | .run w _ => (pool.workers w).place = .locking → pool.raises - (pool.workers w).began < 2 ^ 32
  | _ => True

end Model

-- Each request is pending or answered, never both and never twice, and its answer is the one it should get.
structure Accounted {W : Type} (env : Env) (pool : WorkPool W) : Prop where
  once : (pool.pending.map WorkRequest.id ++ pool.calls.map Prod.fst).Nodup
  known : ∀ request ∈ pool.pending, pool.requests[request.id]? = some request.root
  issued : ∀ call ∈ pool.calls, call.1 < pool.requests.length
  found : ∀ id work, (id, some work) ∈ pool.calls → ∃ root, pool.requests[id]? = some root ∧
    publishThreshold env.network ≤ workValue env root work ∧ ∀ other, (id, other) ∉ pool.removed
  cancelled : ∀ id, (id, none) ∈ pool.calls → ∃ root, pool.requests[id]? = some root ∧ (id, root) ∈ pool.removed
  removed : ∀ id root, (id, root) ∈ pool.removed → (id, none) ∈ pool.calls

-- A search works on the front of the queue for as long as nobody has raised the ticket since it began.
structure Searches {W : Type} (env : Env) (pool : WorkPool W) (worker : Worker) : Prop where
  began : worker.began ≤ pool.raises
  ticket : worker.ticketL = BitVec.ofNat 32 worker.began
  front : worker.began = pool.raises → pool.pending.head? = some worker.current
  output : publishThreshold env.network ≤ worker.output → workValue env worker.current.root worker.work = worker.output
  ended : worker.place = .locking → publishThreshold env.network ≤ worker.output ∨ worker.began < pool.raises

structure WorkerSound {W : Type} (env : Env) (pool : WorkPool W) (worker : Worker) : Prop where
  hash : worker.hash = []
  searches : worker.place ≠ .waiting → worker.place ≠ .exited → Searches env pool worker

structure Sound {W : Type} (env : Env) (pool : WorkPool W) : Prop where
  ticket : pool.ticket = BitVec.ofNat 32 pool.raises
  accounted : Accounted env pool
  workers : ∀ w, WorkerSound env pool (pool.workers w)

end WorkPool

section Accounting

variable {W : Type} {env : Env} {pool : WorkPool W}

theorem accounted_generate (accounted : pool.Accounted env) (root : Hash) :
    WorkPool.Accounted env
      { pool with pending := pool.pending ++ [⟨root, pool.requests.length⟩], requests := pool.requests ++ [root] } := by
  have earlier : ∀ (id : Nat) (other : Hash), pool.requests[id]? = some other → (pool.requests ++ [root])[id]? = some other :=
    fun id other found =>
    (List.getElem?_append_left (List.getElem?_eq_some_iff.mp found).1).trans found
  refine ⟨?_, ?_, ?_, ?_, ?_, accounted.removed⟩
  · -- The new number is above all that were given out before.
    have fresh : pool.requests.length ∉ pool.pending.map WorkRequest.id ++ pool.calls.map Prod.fst := by
      intro member
      obtain pending | called := List.mem_append.mp member
      · obtain ⟨request, listed, same⟩ := List.mem_map.mp pending
        have below := (List.getElem?_eq_some_iff.mp (accounted.known request listed)).1
        omega
      · obtain ⟨call, listed, same⟩ := List.mem_map.mp called
        have below := accounted.issued call listed
        omega
    have perm : ((pool.pending ++ [WorkRequest.mk root pool.requests.length]).map WorkRequest.id ++ pool.calls.map Prod.fst).Perm
        (pool.requests.length :: (pool.pending.map WorkRequest.id ++ pool.calls.map Prod.fst)) := by
      rw [List.map_append, List.append_assoc]
      exact List.perm_middle
    exact perm.nodup_iff.mpr (List.nodup_cons.mpr ⟨fresh, accounted.once⟩)
  · intro request member
    obtain old | new := List.mem_append.mp member
    · exact earlier _ _ (accounted.known request old)
    · rw [List.mem_singleton.mp new]
      exact List.getElem?_concat_length
  · intro call member
    rw [List.length_append]
    exact Nat.lt_add_right _ (accounted.issued call member)
  · intro id work member
    obtain ⟨own, known, rest⟩ := accounted.found id work member
    exact ⟨own, earlier id own known, rest⟩
  · intro id member
    obtain ⟨own, known, rest⟩ := accounted.cancelled id member
    exact ⟨own, earlier id own known, rest⟩

theorem pending_unanswered (accounted : pool.Accounted env) (request : WorkRequest) (waits : request ∈ pool.pending)
    (answer : Option Work) : (request.id, answer) ∉ pool.calls := by
  intro called
  have apart := (List.nodup_append.mp accounted.once).2.2 request.id (List.mem_map_of_mem waits) request.id
    (List.mem_map.mpr ⟨_, called, rfl⟩)
  exact apart rfl

@[simp] theorem stop_search_requests (root : Hash) : (pool.stopSearch root).requests = pool.requests := by
  unfold WorkPool.stopSearch
  split
  · rfl
  · split <;> rfl

@[simp] theorem stop_search_workers (root : Hash) : (pool.stopSearch root).workers = pool.workers := by
  unfold WorkPool.stopSearch
  split
  · rfl
  · split <;> rfl

theorem accounted_cancel (accounted : pool.Accounted env) (root : Hash) : (pool.cancel root).Accounted env := by
  have taken : ∀ request, request ∈ pool.pending.filter (fun request => request.root = root) → request ∈ pool.pending ∧
    request.root = root :=
    fun request member => by simpa using member
  refine ⟨?_, ?_, ?_, ?_, ?_, ?_⟩
  · have split : (pool.pending.filter (fun request => request.root ≠ root) ++ pool.pending.filter fun request =>
      request.root = root).Perm
        pool.pending := by
      refine List.perm_append_comm.trans ?_
      simpa using List.filter_append_perm (fun request : WorkRequest => decide (request.root = root)) pool.pending
    have moved := (split.map WorkRequest.id).append_right (pool.calls.map Prod.fst)
    refine (List.Perm.nodup_iff ?_).mpr accounted.once
    refine List.Perm.trans ?_ moved
    simp only [WorkPool.cancel, List.map_append, List.map_map, List.append_assoc]
    exact List.Perm.append_left _ List.perm_append_comm
  · intro request member
    have known := accounted.known request (List.mem_filter.mp member).1
    simpa [WorkPool.cancel] using known
  · intro call member
    obtain old | new := List.mem_append.mp member
    · simpa [WorkPool.cancel] using accounted.issued call old
    · obtain ⟨request, listed, rfl⟩ := List.mem_map.mp new
      have known := accounted.known request (taken request listed).1
      simpa [WorkPool.cancel] using (List.getElem?_eq_some_iff.mp known).1
  · intro id work member
    obtain old | new := List.mem_append.mp member
    · obtain ⟨own, known, reached, unremoved⟩ := accounted.found id work old
      refine ⟨own, by simpa [WorkPool.cancel] using known, reached, fun other removed => ?_⟩
      obtain before | now := List.mem_append.mp removed
      · exact unremoved other before
      · obtain ⟨request, listed, same⟩ := List.mem_map.mp now
        obtain ⟨rfl, _⟩ := Prod.mk.inj same
        exact pending_unanswered accounted request (taken request listed).1 _ old
    · obtain ⟨request, _, same⟩ := List.mem_map.mp new
      cases (Prod.mk.inj same).2
  · intro id member
    obtain old | new := List.mem_append.mp member
    · obtain ⟨own, known, before⟩ := accounted.cancelled id old
      exact ⟨own, by simpa [WorkPool.cancel] using known, List.mem_append_left _ before⟩
    · obtain ⟨request, listed, same⟩ := List.mem_map.mp new
      obtain ⟨rfl, _⟩ := Prod.mk.inj same
      have known := accounted.known request (taken request listed).1
      rw [(taken request listed).2] at known
      exact ⟨root, by simpa [WorkPool.cancel] using known, List.mem_append_right _ (List.mem_map.mpr ⟨request, listed, rfl⟩)⟩
  · intro id other member
    obtain old | new := List.mem_append.mp member
    · exact List.mem_append_left _ (accounted.removed id other old)
    · obtain ⟨request, listed, same⟩ := List.mem_map.mp new
      obtain ⟨rfl, _⟩ := Prod.mk.inj same
      exact List.mem_append_right _ (List.mem_map.mpr ⟨request, listed, rfl⟩)

theorem accounted_finish (accounted : pool.Accounted env) (request : WorkRequest) (rest : List WorkRequest) (work : Work)
    (front : pool.pending = request :: rest) (reached : publishThreshold env.network ≤ workValue env request.root work) :
    WorkPool.Accounted env { pool.raiseTicket with calls := pool.calls ++ [(request.id, some work)], pending := rest } := by
  have here : request ∈ pool.pending := front ▸ List.mem_cons_self
  have known := accounted.known request here
  refine ⟨?_, fun other member => accounted.known other (front ▸ List.mem_cons_of_mem request member), ?_, ?_, ?_, ?_⟩
  · have once := accounted.once
    rw [front] at once
    refine (List.Perm.nodup_iff ?_).mp once
    rw [List.map_cons, List.cons_append, List.map_append, ← List.append_assoc]
    exact (List.perm_append_singleton _ _).symm
  · intro call member
    obtain old | new := List.mem_append.mp member
    · exact accounted.issued call old
    · rw [List.mem_singleton.mp new]
      exact (List.getElem?_eq_some_iff.mp known).1
  · intro id found member
    obtain old | new := List.mem_append.mp member
    · exact accounted.found id found old
    · obtain ⟨rfl, same⟩ := Prod.mk.inj (List.mem_singleton.mp new)
      obtain rfl := Option.some.inj same
      refine ⟨request.root, known, reached, fun other removed => ?_⟩
      exact pending_unanswered accounted request here none (accounted.removed _ other removed)
  · intro id member
    obtain old | new := List.mem_append.mp member
    · exact accounted.cancelled id old
    · cases List.mem_singleton.mp new
  · exact fun id root member => List.mem_append_left _ (accounted.removed id root member)

end Accounting

section Workers

variable {W : Type} {env : Env} {pool next : WorkPool W} {worker : Worker}

theorem worker_sound_raised (sound : pool.WorkerSound env worker) (raised : next.raises = pool.raises + 1) :
    next.WorkerSound env worker := by
  refine ⟨sound.hash, fun started running => ?_⟩
  have searches := sound.searches started running
  have low := searches.began
  exact ⟨by omega, searches.ticket, fun current => by omega, searches.output, fun _ => Or.inr (by omega)⟩

theorem worker_sound_unmoved (sound : pool.WorkerSound env worker) (raises : next.raises = pool.raises)
    (front : ∀ request, pool.pending.head? = some request → next.pending.head? = some request) : next.WorkerSound env worker := by
  refine ⟨sound.hash, fun started running => ?_⟩
  have searches := sound.searches started running
  refine ⟨raises ▸ searches.began, searches.ticket, fun current => ?_, searches.output, fun locking => ?_⟩
  · exact front _ (searches.front (current.trans raises))
  · rw [raises]
    exact searches.ended locking

theorem start_sound (env : Env) (uninit : W → Work × BitVec 64) : (WorkPool.start uninit).Sound env := by
  refine ⟨rfl, ⟨List.nodup_nil, ?_, ?_, ?_, ?_, ?_⟩, fun w => ⟨rfl, fun waiting => absurd rfl waiting⟩⟩
  all_goals simp [WorkPool.start]

theorem sound_generate (sound : pool.Sound env) (root : Hash) (returned : pool.generate root = .ok next) : next.Sound env := by
  unfold WorkPool.generate at returned
  by_cases zero : root = 0
  · simp [ensure, zero] at returned
  rw [ensure_true _ zero, bind_ok] at returned
  obtain rfl := Except.ok.inj returned
  refine ⟨sound.ticket, accounted_generate sound.accounted root, fun w => worker_sound_unmoved
    (sound.workers w) rfl fun request front => ?_⟩
  rw [List.head?_append, front]
  rfl

theorem raised_ticket (sound : pool.Sound env) : pool.raiseTicket.ticket = BitVec.ofNat 32 pool.raiseTicket.raises := by
  change pool.ticket + 1 = BitVec.ofNat 32 (pool.raises + 1)
  rw [sound.ticket, BitVec.ofNat_add]
  rfl

theorem sound_cancel (sound : pool.Sound env) (root : Hash) : (pool.cancel root).Sound env := by
  refine ⟨?_, accounted_cancel sound.accounted root, ?_⟩
  · change (pool.stopSearch root).ticket = BitVec.ofNat 32 (pool.stopSearch root).raises
    unfold WorkPool.stopSearch
    split
    · exact sound.ticket
    · split
      · exact raised_ticket sound
      · exact sound.ticket
  · intro w
    have worker : (pool.cancel root).workers w = pool.workers w := by simp [WorkPool.cancel]
    rw [worker]
    cases found : pool.pending with
    | nil =>
        refine worker_sound_unmoved (sound.workers w) (by simp [WorkPool.cancel, WorkPool.stopSearch, found]) fun request front => ?_
        rw [found] at front
        cases front
    | cons first rest =>
        by_cases same : first.root = root
        · exact worker_sound_raised (sound.workers w)
            (by simp [WorkPool.cancel, WorkPool.stopSearch, found, same, WorkPool.raiseTicket])
        · refine worker_sound_unmoved (sound.workers w) (by simp [WorkPool.cancel, WorkPool.stopSearch, found, same]) fun request
            front => ?_
          rw [found] at front
          simpa [WorkPool.cancel, found, same] using front

-- Behind the search: a ticket that has not moved was not raised, so the search reached the threshold and the front of the
-- queue is still the request it worked on.
theorem finish_settled (sound : pool.Sound env) (w : W) (here : (pool.workers w).place = .locking)
    (short : pool.raises - (pool.workers w).began < 2 ^ 32) : ∃ next, pool.finish env w = .ok next ∧ next.Sound env := by
  have searches := (sound.workers w).searches (by simp [here]) (by simp [here])
  unfold WorkPool.finish
  by_cases unmoved : pool.ticket = (pool.workers w).ticketL
  · have current : (pool.workers w).began = pool.raises := by
      have low := searches.began
      rw [sound.ticket, searches.ticket] at unmoved
      have same := congrArg BitVec.toNat unmoved
      rw [BitVec.toNat_ofNat, BitVec.toNat_ofNat] at same
      omega
    have reached := (searches.ended here).resolve_right (by omega)
    have value := searches.output reached
    obtain ⟨rest, front⟩ := List.head?_eq_some_iff.mp (searches.front current)
    refine ⟨{ pool.raiseTicket with
      calls := pool.calls ++ [((pool.workers w).current.id, some (pool.workers w).work)], pending := rest }, ?_, ?_⟩
    · rw [if_pos unmoved, ensure_true _ reached, bind_ok, ensure_true _ value, bind_ok, front]
      rfl
    · refine ⟨raised_ticket sound, accounted_finish sound.accounted _ rest _ front (value ▸ reached), fun other => ?_⟩
      exact worker_sound_raised (sound.workers other) rfl
  · exact ⟨pool, if_neg unmoved, sound⟩

variable [DecidableEq W]

theorem sound_set_worker (sound : pool.Sound env) (w : W) (moved : pool.WorkerSound env worker) :
    (pool.setWorker w worker).Sound env := by
  refine ⟨sound.ticket, ⟨sound.accounted.once, sound.accounted.known, sound.accounted.issued, sound.accounted.found,
    sound.accounted.cancelled, sound.accounted.removed⟩, fun other => ?_⟩
  have kept : ∀ any, pool.WorkerSound env any → (pool.setWorker w worker).WorkerSound env any := fun any before =>
    worker_sound_unmoved before rfl fun _ => id
  by_cases same : other = w
  · subst same
    simpa [WorkPool.setWorker] using kept worker moved
  · simpa [WorkPool.setWorker, same] using kept _ (sound.workers other)

theorem threshold_positive (network : Network) : ¬ publishThreshold network ≤ 0 := by
  cases network <;> decide

theorem sound_loop_head (sound : pool.Sound env) (w : W) : (pool.loopHead w).Sound env := by
  unfold WorkPool.loopHead
  split
  · refine sound_set_worker sound w ⟨(sound.workers w).hash, fun waiting exited => ?_⟩
    by_cases stopped : pool.done = true <;> simp [stopped] at waiting exited
  · next front rest found =>
      refine sound_set_worker sound w ⟨(sound.workers w).hash, fun _ _ =>
        ⟨le_refl _, sound.ticket, fun _ => by rw [found]; rfl, ?_, ?_⟩⟩
      · exact fun reached => absurd reached (threshold_positive env.network)
      · exact fun locking => by cases locking

theorem sound_outer (sound : pool.Sound env) (w : W) (here : (pool.workers w).place = .outer) :
    (pool.setWorker w (pool.searchOuter env (pool.workers w))).Sound env := by
  have searches := (sound.workers w).searches (by simp [here]) (by simp [here])
  refine sound_set_worker sound w ⟨(sound.workers w).hash, fun _ _ =>
    ⟨searches.began, searches.ticket, searches.front, searches.output, ?_⟩⟩
  intro locking
  unfold WorkPool.searchOuter at locking ⊢
  dsimp only at locking ⊢
  split at locking
  · cases locking
  · next stopped =>
      by_cases reached : publishThreshold env.network ≤ (pool.workers w).output
      · exact Or.inl reached
      · refine Or.inr (lt_of_le_of_ne searches.began fun same => stopped ⟨?_, BitVec.not_le.mp reached⟩)
        rw [sound.ticket, searches.ticket, same]

theorem sound_inner (sound : pool.Sound env) (w : W) (random : Work) (iteration : Nat)
    (here : (pool.workers w).place = .inner iteration) :
    (pool.setWorker w (WorkPool.searchInner env (pool.workers w) random iteration)).Sound env := by
  have searches := (sound.workers w).searches (by simp [here]) (by simp [here])
  have hash := (sound.workers w).hash
  have left : pool.WorkerSound env { pool.workers w with place := .outer } :=
    ⟨hash, fun _ _ => ⟨searches.began, searches.ticket, searches.front, searches.output, fun locking => by cases locking⟩⟩
  apply sound_set_worker sound w
  unfold WorkPool.searchInner
  split
  · exact left
  · split
    · -- The hash state was fresh, so the output is the work value of the root and the random number.
      refine ⟨rfl, fun _ _ => ⟨searches.began, searches.ticket, searches.front, fun _ => ?_, fun locking => by cases locking⟩⟩
      simp [WorkPool.attempt, workValue, hash]
    · exact left

theorem run_settled (sound : pool.Sound env) (w : W) (random : Work) (short : pool.ShortSearch (.run w random)) :
    ∃ next, pool.run env w random = .ok next ∧ next.Sound env := by
  unfold WorkPool.run
  split
  · exact ⟨_, rfl, sound_loop_head sound w⟩
  · next here => exact ⟨_, rfl, sound_outer sound w here⟩
  · next iteration here => exact ⟨_, rfl, sound_inner sound w random iteration here⟩
  · next here =>
      obtain ⟨finished, returned, kept⟩ := finish_settled sound w here (short here)
      exact ⟨_, by rw [returned, bind_ok], sound_loop_head kept w⟩
  · exact ⟨_, rfl, sound⟩

theorem step_sound (sound : pool.Sound env) (action : WorkAction W) (short : pool.ShortSearch action)
    (taken : pool.step env action = .ok next) :
    next.Sound env := by
  cases action with
  | generate root => exact sound_generate sound root taken
  | cancel root => exact Except.ok.inj taken ▸ sound_cancel sound root
  | stop =>
      obtain rfl := Except.ok.inj taken
      have accounted := sound.accounted
      exact ⟨sound.ticket, ⟨accounted.once, accounted.known, accounted.issued, accounted.found, accounted.cancelled, accounted.removed⟩,
        fun w => worker_sound_unmoved (sound.workers w) rfl fun _ => id⟩
  | run w random =>
      obtain ⟨next', returned, kept⟩ := run_settled sound w random short
      obtain rfl := Except.ok.inj (taken.symm.trans returned)
      exact kept

end Workers

def PoolRun {W : Type} [DecidableEq W] (env : Env) (uninit : W → Work × BitVec 64) : WorkPool W → Prop :=
  Trail (fun pool action next => pool.step env action = .ok next) WorkPool.ShortSearch (WorkPool.start uninit)

-- However threads, requests and cancels interleave, a request is answered at most once, with work that is good enough for
-- its own root or with none because it was cancelled, and no thread runs into an assertion.
theorem pool_answers_once (env : Env) {W : Type} [DecidableEq W] (uninit : W → Work × BitVec 64) (pool : WorkPool W)
    (reached : PoolRun env uninit pool) :
    (pool.calls.map Prod.fst).Nodup ∧
    (∀ id work, (id, some work) ∈ pool.calls → ∃ root, pool.requests[id]? = some root ∧
      publishThreshold env.network ≤ workValue env root work ∧ ∀ other, (id, other) ∉ pool.removed) ∧
    (∀ id, (id, none) ∈ pool.calls → ∃ root, pool.requests[id]? = some root ∧ (id, root) ∈ pool.removed) ∧
    ∀ w random, pool.ShortSearch (.run w random) → ∃ next, pool.run env w random = .ok next := by
  have sound : pool.Sound env := trail_invariant _ _ (fun pool => pool.Sound env) (start_sound env uninit)
    (fun _ action _ kept short taken => step_sound kept action short taken) reached
  refine ⟨(List.nodup_append.mp sound.accounted.once).2.1, sound.accounted.found, sound.accounted.cancelled, fun w random short => ?_⟩
  obtain ⟨next, returned, _⟩ := run_settled sound w random short
  exact ⟨next, returned⟩

instance shortSearchDecidable {W : Type} (pool : WorkPool W) (action : WorkAction W) : Decidable (pool.ShortSearch action) :=
  match action with
  | .run _ _ => inferInstanceAs (Decidable (_ → _))
  | .generate _ => isTrue trivial
  | .cancel _ => isTrue trivial
  | .stop => isTrue trivial

def runActions {W : Type} [DecidableEq W] (env : Env) (pool : WorkPool W) : List (WorkAction W) → Option (WorkPool W)
  | [] => some pool
  | action :: rest =>
      match pool.step env action with
      | .ok next => if pool.ShortSearch action then runActions env next rest else none
      | .error _ => none

theorem run_actions_reached {W : Type} [DecidableEq W] (env : Env) (uninit : W → Work × BitVec 64) (actions : List (WorkAction W))
    (pool last : WorkPool W) (reached : PoolRun env uninit pool) (ran : runActions env pool actions = some last) :
    PoolRun env uninit last := by
  induction actions generalizing pool with
  | nil =>
      obtain rfl := Option.some.inj ran
      exact reached
  | cons action rest ih =>
      unfold runActions at ran
      split at ran
      · next next taken =>
          split at ran
          · next short => exact ih next (Trail.step pool action next reached short taken) ran
          · cases ran
      · cases ran

def samplePoolActions : List (WorkAction Bool) :=
  [.generate 5, .run false 0, .run true 0, .run false 0, .run false (BitVec.allOnes 64), .generate 7, .run false 0,
    .run false 0, .run false 0, .cancel 7, .run true 0, .run true 0]

theorem pool_answers_once_sample : ∃ pool, runActions sampleEnv (WorkPool.start fun _ => (0, 0)) samplePoolActions = some pool ∧
    pool.calls = [(0, some (BitVec.allOnes 64)), (1, none)] ∧ publishThreshold .test ≤ workValue sampleEnv 5 (BitVec.allOnes 64) ∧
    (1, 7) ∈ pool.removed := by
  have computed : ((runActions sampleEnv (WorkPool.start fun _ => (0, 0)) samplePoolActions).map fun pool =>
    (pool.calls, pool.requests)) =
      some ([(0, some (BitVec.allOnes 64)), (1, none)], [5, 7]) := by decide +kernel
  obtain ⟨pool, ran, fields⟩ := Option.map_eq_some_iff.mp computed
  obtain ⟨calls, requests⟩ := Prod.mk.inj fields
  have begun : PoolRun sampleEnv (fun _ : Bool => (0, 0)) (WorkPool.start fun _ => (0, 0)) := Trail.start
  have reached := run_actions_reached sampleEnv _ samplePoolActions _ pool begun ran
  obtain ⟨_, found, cancelled, _⟩ := pool_answers_once sampleEnv _ pool reached
  rw [calls, requests] at found cancelled
  obtain ⟨root, known, good, _⟩ := found 0 (BitVec.allOnes 64) (by simp)
  obtain ⟨root', known', removed⟩ := cancelled 1 (by simp)
  obtain rfl := Option.some.inj known
  obtain rfl := Option.some.inj known'
  exact ⟨pool, ran, calls, good, removed⟩

end Rai
